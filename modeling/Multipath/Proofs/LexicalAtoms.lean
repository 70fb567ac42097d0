import Mathlib
import Multipath.Proofs.Ensures
import Multipath.Proofs.Productions
import Multipath.Proofs.TagStates

/-!
The two tokens of Aether that are spelled out as automata of their own. Under the lexical condition
an opening curly bracket leaves only the states of ranges, and an opening square bracket only those
of bracket expressions; the rows of the table for these states are then read as equations about
the words that lead from them to an end. So a range is found just where one stands, and where a
bracket expression stands the longest one is found, each with its own tag alone
(`Aether.scan_atoms`).
-/

namespace Multipath

open Automaton (StateId Transition accept)

/-- Words of a loop: some characters of one kind, and then a character that leaves it. -/
theorem loop_iff {words : List Char → Prop} {stays : Char → Prop}
    {leaves : Char → List Char → Prop}
    (h : ∀ w, words w ↔ ∃ c cs, w = c :: cs ∧ (stays c ∧ words cs ∨ leaves c cs))
    (w : List Char) :
    words w ↔ ∃ ds c cs, (∀ d ∈ ds, stays d) ∧ leaves c cs ∧ w = ds ++ c :: cs := by
  constructor
  · intro hw
    induction w with
    | nil =>
        obtain ⟨_, _, ⟨⟩, -⟩ := (h _).mp hw
    | cons c cs ih =>
        obtain ⟨_, _, ⟨⟩, ⟨hc, hcs⟩ | hleaves⟩ := (h _).mp hw
        · obtain ⟨ds, c', cs', hds, hleaves, rfl⟩ := ih hcs
          exact ⟨c :: ds, c', cs', List.forall_mem_cons.mpr ⟨hc, hds⟩, hleaves, rfl⟩
        · exact ⟨[], c, cs, nofun, hleaves, rfl⟩
  · rintro ⟨ds, c, cs, hds, hleaves, rfl⟩
    induction ds with
    | nil => exact (h _).mpr ⟨c, cs, rfl, .inr hleaves⟩
    | cons d ds ih =>
        obtain ⟨hd, hds⟩ := List.forall_mem_cons.mp hds
        exact (h _).mpr ⟨d, _, rfl, .inl ⟨hd, ih hds⟩⟩

namespace Aether

def IsDigit (c : Char) : Prop := '0' ≤ c ∧ c ≤ '9'

/-- One ASCII digit or more. -/
def Digits (ds : List Char) : Prop := ds ≠ [] ∧ ∀ d ∈ ds, IsDigit d

/-- A count of repetitions: just so many, at least so many, or from so many to so many. -/
inductive RangeText : List Char → Prop
  | exactly {n : List Char} (hn : Digits n) : RangeText ('\x7b' :: n ++ ['\x7d'])
  | atLeast {n : List Char} (hn : Digits n) : RangeText ('\x7b' :: n ++ [',', '\x7d'])
  | between {n m : List Char} (hn : Digits n) (hm : Digits m) :
    RangeText ('\x7b' :: n ++ ',' :: m ++ ['\x7d'])

/-- Square brackets around one character of any kind and others that do not close them, with or
without a negation in front. -/
inductive BracketText : List Char → Prop
  | members (first : Char) {rest : List Char} (h : ∀ c ∈ rest, c ≠ ']') :
    BracketText ('[' :: first :: rest ++ [']'])
  | negated (first : Char) {rest : List Char} (h : ∀ c ∈ rest, c ≠ ']') :
    BracketText ('[' :: '^' :: first :: rest ++ [']'])

/-! The states of the two automata behind their opening brackets, by their places in the table, and
the rows of the table for them. -/

namespace State

def first : StateId := 41
def low : StateId := 42
def comma : StateId := 43
def high : StateId := 44
def negated : StateId := 54
def member : StateId := 55
def members : StateId := 56

end State

def rangeStates : List StateId := [State.first, State.low, State.comma, State.high]

def bracketStates : List StateId := [State.negated, State.member, State.members]

namespace Row

def first : List Transition := [⟨State.first, .digit, [State.low], [], []⟩]

def low : List Transition :=
  [⟨State.low, .digit, [State.low], [], []⟩, ⟨State.low, .char ',', [State.comma], [], []⟩,
    ⟨State.low, .char '\x7d', [accept], [Tag.expressionRange], []⟩]

def comma : List Transition :=
  [⟨State.comma, .digit, [State.high], [], []⟩,
    ⟨State.comma, .char '\x7d', [accept], [Tag.expressionRange], []⟩]

def high : List Transition :=
  [⟨State.high, .digit, [State.high], [], []⟩,
    ⟨State.high, .char '\x7d', [accept], [Tag.expressionRange], []⟩]

def negated : List Transition := [⟨State.negated, .char '^', [State.member], [], []⟩]

def member : List Transition := [⟨State.member, .any, [State.members], [], []⟩]

def members : List Transition :=
  [⟨State.members, .not (.char ']'), [State.members], [], []⟩,
    ⟨State.members, .char ']', [accept], [Tag.bracketExpression], []⟩]

end Row

structure Spells (a : Automaton) : Prop where
  first : a.outgoing State.first = Row.first
  low : a.outgoing State.low = Row.low
  comma : a.outgoing State.comma = Row.comma
  high : a.outgoing State.high = Row.high
  negated : a.outgoing State.negated = Row.negated
  member : a.outgoing State.member = Row.member
  members : a.outgoing State.members = Row.members

variable {lexicon : Lexicon} {a : Automaton} {w : List Char}

theorem spells (h : Aether.lexicon = .ok lexicon) : Spells lexicon.automaton := by
  have hrows : (Aether.lexicon.toOption.map fun l =>
      (rangeStates ++ bracketStates).map l.automaton.outgoing) =
        some [Row.first, Row.low, Row.comma, Row.high, Row.negated, Row.member, Row.members] := by
    cbv
  simp only [h, Except.toOption, Option.map_some, Option.some.injEq, rangeStates, bracketStates,
    List.cons_append, List.nil_append, List.map_cons, List.map_nil, List.cons.injEq] at hrows
  obtain ⟨hfirst, hlow, hcomma, hhigh, hnegated, hmember, hmembers, -⟩ := hrows
  exact ⟨hfirst, hlow, hcomma, hhigh, hnegated, hmember, hmembers⟩

theorem confined_range (h : Aether.lexicon = .ok lexicon) :
    lexicon.automaton.Confined rangeStates Tag.expressionRange := by
  have hconfined : (Aether.lexicon.toOption.map fun l =>
      decide (l.automaton.Confined rangeStates Tag.expressionRange)) = some true := by
    decide +kernel
  simpa [h, Except.toOption] using hconfined

theorem confined_bracket (h : Aether.lexicon = .ok lexicon) :
    lexicon.automaton.Confined bracketStates Tag.bracketExpression := by
  have hconfined : (Aether.lexicon.toOption.map fun l =>
      decide (l.automaton.Confined bracketStates Tag.bracketExpression)) = some true := by
    decide +kernel
  simpa [h, Except.toOption] using hconfined

/-- No tag but that of ranges goes on behind an opening curly bracket, and none but that of bracket
expressions behind an opening square one. -/
theorem next_of_openings (h : Aether.lexicon = .ok lexicon) :
    (lexicon.automaton.step '\x7b' (lexicon.startStates {"lexical"})).next.toList =
        [State.first] ∧
      (lexicon.automaton.step '[' (lexicon.startStates {"lexical"})).next.toList =
        [State.negated, State.member] := by
  have hnext : (Aether.lexicon.toOption.map fun l => ['\x7b', '['].map fun c =>
      (l.automaton.step c (l.startStates {"lexical"})).next.toList) =
        some [[State.first], [State.negated, State.member]] := by
    decide +kernel
  simpa [h, Except.toOption] using hnext

section Words

variable (h : Spells a)
include h

theorem Spells.accepts_first : a.Accepts w State.first ↔
    ∃ c cs, w = c :: cs ∧ IsDigit c ∧ a.Accepts cs State.low := by
  have hlow : accept ≠ State.low := by decide
  rw [Automaton.accepts_iff (by decide), h.first, Row.first]
  simp [CharClass.accepts, CharClass.digit, IsDigit, hlow]

theorem Spells.accepts_low (w : List Char) : a.Accepts w State.low ↔
    ∃ c cs, w = c :: cs ∧ (IsDigit c ∧ a.Accepts cs State.low ∨
      (',' = c ∧ a.Accepts cs State.comma ∨ '\x7d' = c ∧ cs = [])) := by
  have hlow : accept ≠ State.low := by decide
  have hcomma : accept ≠ State.comma := by decide
  rw [Automaton.accepts_iff hlow.symm, h.low, Row.low]
  simp [CharClass.accepts, CharClass.digit, IsDigit, Automaton.not_accepts_accept, hlow, hcomma]

theorem Spells.accepts_high (w : List Char) : a.Accepts w State.high ↔
    ∃ c cs, w = c :: cs ∧ (IsDigit c ∧ a.Accepts cs State.high ∨ '\x7d' = c ∧ cs = []) := by
  have hhigh : accept ≠ State.high := by decide
  rw [Automaton.accepts_iff hhigh.symm, h.high, Row.high]
  simp [CharClass.accepts, CharClass.digit, IsDigit, Automaton.not_accepts_accept, hhigh]

/-- Digits behind the comma may be missing. -/
theorem Spells.accepts_comma : a.Accepts w State.comma ↔ a.Accepts w State.high := by
  have hhigh : accept ≠ State.high := by decide
  rw [Automaton.accepts_iff (by decide), h.comma, Row.comma, h.accepts_high]
  simp [CharClass.accepts, CharClass.digit, IsDigit, Automaton.not_accepts_accept, hhigh]

theorem Spells.accepts_negated : a.Accepts w State.negated ↔
    ∃ c cs, w = c :: cs ∧ '^' = c ∧ a.Accepts cs State.member := by
  have hmember : accept ≠ State.member := by decide
  rw [Automaton.accepts_iff (by decide), h.negated, Row.negated]
  simp [CharClass.accepts, hmember]

theorem Spells.accepts_member : a.Accepts w State.member ↔
    ∃ c cs, w = c :: cs ∧ a.Accepts cs State.members := by
  have hmembers : accept ≠ State.members := by decide
  rw [Automaton.accepts_iff (by decide), h.member, Row.member]
  simp [CharClass.accepts, hmembers]

theorem Spells.accepts_members (w : List Char) : a.Accepts w State.members ↔
    ∃ c cs, w = c :: cs ∧ (']' ≠ c ∧ a.Accepts cs State.members ∨ ']' = c ∧ cs = []) := by
  have hmembers : accept ≠ State.members := by decide
  rw [Automaton.accepts_iff hmembers.symm, h.members, Row.members]
  simp [CharClass.accepts, Automaton.not_accepts_accept, hmembers]

theorem Spells.high_words : a.Accepts w State.high ↔
    ∃ ds, (∀ d ∈ ds, IsDigit d) ∧ w = ds ++ ['\x7d'] := by
  rw [loop_iff h.accepts_high]
  constructor
  · rintro ⟨ds, _, _, hds, ⟨rfl, rfl⟩, rfl⟩
    exact ⟨ds, hds, rfl⟩
  · rintro ⟨ds, hds, rfl⟩
    exact ⟨ds, _, _, hds, ⟨rfl, rfl⟩, rfl⟩

theorem Spells.members_words : a.Accepts w State.members ↔
    ∃ cs, (∀ c ∈ cs, c ≠ ']') ∧ w = cs ++ [']'] := by
  rw [loop_iff h.accepts_members]
  constructor
  · rintro ⟨cs, _, _, hcs, ⟨rfl, rfl⟩, rfl⟩
    exact ⟨cs, fun c hc => (hcs c hc).symm, rfl⟩
  · rintro ⟨cs, hcs, rfl⟩
    exact ⟨cs, _, _, fun c hc => (hcs c hc).symm, ⟨rfl, rfl⟩, rfl⟩

theorem Spells.first_words : a.Accepts w State.first ↔ ∃ n c cs, Digits n ∧
    (',' = c ∧ a.Accepts cs State.high ∨ '\x7d' = c ∧ cs = []) ∧ w = n ++ c :: cs := by
  simp only [h.accepts_first, loop_iff h.accepts_low, h.accepts_comma]
  constructor
  · rintro ⟨d, _, rfl, hd, ds, c, cs, hds, hleaves, rfl⟩
    exact ⟨d :: ds, c, cs, ⟨nofun, List.forall_mem_cons.mpr ⟨hd, hds⟩⟩, hleaves, rfl⟩
  · rintro ⟨n, c, cs, ⟨hne, hn⟩, hleaves, rfl⟩
    obtain ⟨d, ds, rfl⟩ := List.exists_cons_of_ne_nil hne
    obtain ⟨hd, hds⟩ := List.forall_mem_cons.mp hn
    exact ⟨d, _, rfl, hd, ds, c, cs, hds, hleaves, rfl⟩

theorem Spells.rangeText_iff : RangeText ('\x7b' :: w) ↔ a.Accepts w State.first := by
  rw [h.first_words]
  constructor
  · intro hw
    cases hw with
    | exactly hn => exact ⟨_, _, _, hn, .inr ⟨rfl, rfl⟩, rfl⟩
    | atLeast hn => exact ⟨_, _, _, hn, .inl ⟨rfl, h.high_words.mpr ⟨[], nofun, rfl⟩⟩, rfl⟩
    | @between n m hn hm =>
        refine ⟨n, _, _, hn, .inl ⟨rfl, h.high_words.mpr ⟨m, hm.2, rfl⟩⟩, ?_⟩
        exact List.append_assoc n (',' :: m) _
  · rintro ⟨n, c, cs, hn, ⟨rfl, hcs⟩ | ⟨rfl, rfl⟩, rfl⟩
    · obtain ⟨m, hm, rfl⟩ := h.high_words.mp hcs
      by_cases hne : m = []
      · subst hne
        exact .atLeast hn
      · have hbetween := RangeText.between hn ⟨hne, hm⟩
        rwa [List.append_assoc] at hbetween
    · exact .exactly hn

theorem Spells.bracketText_iff : BracketText ('[' :: w) ↔
    ∃ s ∈ [State.negated, State.member], a.Accepts w s := by
  simp only [List.mem_cons, List.not_mem_nil, or_false, exists_eq_or_imp, exists_eq_left,
    h.accepts_negated, h.accepts_member, h.members_words]
  constructor
  · intro hw
    cases hw with
    | members first hcs => exact .inr ⟨first, _, rfl, _, hcs, rfl⟩
    | negated first hcs => exact .inl ⟨_, _, rfl, rfl, first, _, rfl, _, hcs, rfl⟩
  · rintro (⟨_, _, rfl, rfl, first, _, rfl, cs, hcs, rfl⟩ | ⟨first, _, rfl, cs, hcs, rfl⟩)
    · exact .negated first hcs
    · exact .members first hcs

end Words

/-- A range ends with the first closing bracket there is. -/
theorem RangeText.closes (h : RangeText w) : ∃ u, w = u ++ ['\x7d'] ∧ '\x7d' ∉ u := by
  have hdigits {n : List Char} (hn : Digits n) : '\x7d' ∉ n := fun hmem =>
    absurd (hn.2 _ hmem).2 (by decide)
  cases h with
  | @exactly n hn => exact ⟨'\x7b' :: n, rfl, by simp [hdigits hn]⟩
  | @atLeast n hn => exact ⟨'\x7b' :: n ++ [','], by simp, by simp [hdigits hn]⟩
  | @between n m hn hm =>
      exact ⟨'\x7b' :: n ++ ',' :: m, rfl, by simp [hdigits hn, hdigits hm]⟩

theorem RangeText.eq_of_prefix {v : List Char} (hv : RangeText v) (hw : RangeText w)
    (h : v <+: w) : v = w := by
  obtain ⟨u, rfl, -⟩ := hv.closes
  obtain ⟨u', rfl, hu'⟩ := hw.closes
  obtain heq | h := List.prefix_concat_iff.mp h
  · exact heq
  · exact absurd (h.subset (by simp)) hu'

theorem longest_range_iff {cs : List Char} :
    LongestPrefix RangeText cs w ↔ w <+: cs ∧ RangeText w := by
  refine ⟨fun h => ⟨h.isPrefix, h.isKind⟩, fun ⟨hwithin, hw⟩ => ⟨hwithin, hw, fun v hv hkind => ?_⟩⟩
  obtain h | h := List.prefix_or_prefix_of_prefix hv hwithin
  · exact h.length_le
  · exact Nat.le_of_eq (congrArg List.length (hw.eq_of_prefix hkind h).symm)

/-- Under just the lexical condition, an opening curly bracket begins a match if and only if a range
stands there, which then is the match, with the tag of ranges alone. An opening square bracket
begins one if and only if a bracket expression stands there, and then the match is the longest of
those that do, with their tag alone. -/
theorem scan_atoms (src : Source) (hlexicon : Aether.lexicon = .ok src.lexicon)
    (hconditions : src.conditions = {"lexical"}) (p : Position) :
    (∀ cs, src.rest p.index = '\x7b' :: cs →
      ((src.scan p).accepted.isSome ↔ ∃ w, w <+: src.rest p.index ∧ RangeText w) ∧
      ∀ m, (src.scan p).accepted = some m ↔ ∃ w, (w <+: src.rest p.index ∧ RangeText w) ∧
        m = ⟨{Tag.expressionRange}, p.advanceAll w⟩) ∧
    ∀ cs, src.rest p.index = '[' :: cs →
      ((src.scan p).accepted.isSome ↔ ∃ w, w <+: src.rest p.index ∧ BracketText w) ∧
      ∀ m, (src.scan p).accepted = some m ↔
        ∃ w, LongestPrefix BracketText (src.rest p.index) w ∧
          m = ⟨{Tag.bracketExpression}, p.advanceAll w⟩ := by
  have hspells := spells hlexicon
  have hstarts : src.starts = src.lexicon.startStates {"lexical"} := by
    rw [src.starts_eq, hconditions]
  obtain ⟨hcurly, hsquare⟩ := next_of_openings hlexicon
  rw [← hstarts] at hcurly hsquare
  constructor
  · intro cs hrest
    have hverdict (w : List Char) (tags : TagSet) :
        src.lexicon.automaton.verdict src.starts ('\x7b' :: w) = some tags ↔
          RangeText ('\x7b' :: w) ∧ tags = {Tag.expressionRange} := by
      rw [(confined_range hlexicon).verdict_cons hcurly (by decide) (by decide),
        hspells.rangeText_iff]
      simp
    obtain ⟨hsome, hmatch⟩ := Source.scan_dedicated hrest nofun hverdict
    exact ⟨hsome, fun m => (hmatch m).trans
      (exists_congr fun w => and_congr_left fun _ => longest_range_iff)⟩
  · intro cs hrest
    refine Source.scan_dedicated hrest nofun fun w tags => ?_
    rw [(confined_bracket hlexicon).verdict_cons hsquare (by decide) (by decide),
      hspells.bracketText_iff]

theorem scan_atoms_negated : ∃ lexicon, Aether.lexicon = .ok lexicon ∧
    ((Source.ofText lexicon {"lexical"} "[^]a]b" "atoms").scan .start).accepted.isSome := by
  obtain ⟨lexicon, hlexicon⟩ := exists_lexicon
  refine ⟨lexicon, hlexicon, ?_⟩
  have hrest : (Source.ofText lexicon {"lexical"} "[^]a]b" "atoms").rest Position.start.index =
      ['[', '^', ']', 'a', ']', 'b'] := by
    rw [Source.rest_eq]
    rfl
  have hatoms := scan_atoms (Source.ofText lexicon {"lexical"} "[^]a]b" "atoms") hlexicon rfl .start
  refine ((hatoms.2 _ hrest).1).mpr ⟨['[', '^', ']', 'a', ']'], ?_, ?_⟩
  · rw [hrest]
    exact ⟨['b'], rfl⟩
  · exact .negated ']' (List.forall_mem_singleton.mpr (by decide))

end Aether
end Multipath
