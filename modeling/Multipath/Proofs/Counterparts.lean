import Multipath.Proofs.Correspondence
import Multipath.Proofs.Dependence
import Multipath.Proofs.Mirrors
import Multipath.Proofs.Normalization

/-!
A session that goes along with another one. Its text has the other's tokens, somewhere else
perhaps, and its rules are the other's, except that there may be optional references more among the
items of a rule, to rules that the other one is not asked for and that never match where they are
tried. The runs of the two then stay alike in all but these references: in what is found about every
other rule, in the nodes, and in the rules being derived.
-/

namespace Multipath

open Search (attempt noPath outcome outputOf readToken)

namespace Grammar

variable {g : Grammar} {reads : Position → Token → Prop}
  {refers : RuleId → Position → Position → Prop} {items items' : List Rule} {p q m : Position}
  {x : Question}

theorem Leads.append (h : g.Leads reads refers (.sequence items) p m)
    (h' : g.Leads reads refers (.sequence items') m q) :
    g.Leads reads refers (.sequence (items ++ items')) p q := by
  induction items generalizing p with
  | nil =>
      cases h
      exact h'
  | cons item items ih =>
      cases h with
      | cons hitem hitems => exact .cons hitem (ih hitems)

/-- What is asked by the first items, and behind them by the others. -/
theorem Asks.front (h : g.Asks reads refers (.sequence items) p x) :
    g.Asks reads refers (.sequence (items ++ items')) p x := by
  induction items generalizing p with
  | nil => cases h
  | cons item items ih =>
      cases h with
      | head hitem => exact .head hitem
      | rest hitem hitems => exact .rest hitem (ih hitems)

theorem Asks.behind (h : g.Leads reads refers (.sequence items) p m)
    (h' : g.Asks reads refers (.sequence items') m x) :
    g.Asks reads refers (.sequence (items ++ items')) p x := by
  induction items generalizing p with
  | nil =>
      cases h
      exact h'
  | cons item items ih =>
      cases h with
      | cons hitem hitems => exact .rest hitem (ih hitems)

end Grammar

/-- A rule that only the second session is asked for begins with a token that is not there. -/
def Session.Misses (s s' : Session) (hidden : RuleId → Prop) (r : RuleId) (m : Position) : Prop :=
  hidden r ∧ ∃ name tag rest, s'.grammar.rule? r = some ⟨name, .sequence (.terminal tag :: rest)⟩ ∧
    ∀ t, s.source.token m = .ok t → t.hasTag tag = false

/-- What a body may be where a session goes along with another: the same, or one with an optional
reference more, to a rule that is missing wherever it is tried. -/
inductive Session.Extends (s s' : Session) (hidden : RuleId → Prop)
    (answered : RuleId → Position → Prop) (deep : Prop) (p : Position) : Rule → Rule → Prop
  | same {body} : SwitchedAlike s.grammar s'.grammar body →
      (∀ r m, s.Asks body p (.reference r m) → answered r m) →
      Extends s s' hidden answered deep p body body
  | idle {front back r} : deep → back ≠ [] →
      SwitchedAlike s.grammar s'.grammar (.sequence (front ++ back)) →
      (∀ r m, s.Asks (.sequence (front ++ back)) p (.reference r m) → answered r m) →
      (∀ m, s.Ends (.sequence front) p m → s.Misses s' hidden r m) →
      Extends s s' hidden answered deep p (.sequence (front ++ back))
        (.sequence (front ++ .optional (.nonterminal r) :: back))

/-- `s'` goes along with `s`. -/
structure Counterpart (s s' : Session) where
  σ : Relocation
  /-- Rules that only `s'` is asked for. -/
  hidden : RuleId → Prop
  /-- References that both answer alike while a number of levels is left. -/
  answered : Nat → RuleId → Position → Prop
  maxDepth_eq : s'.maxDepth = s.maxDepth
  lexicon_eq : s'.grammar.lexicon = s.grammar.lexicon
  name_eq : ∀ r, s'.grammar.name r = s.grammar.name r
  length_eq : s'.source.length = s.source.length + σ.offset
  place : ∀ {p}, s.source.IsPlace p → s'.source.IsPlace (σ.move p)
  token : ∀ {p}, s.source.IsPlace p →
    s'.source.token (σ.move p) = relocateRead σ (s.source.token p)
  skip : ∀ {p}, s.source.IsPlace p →
    s'.source.skipIgnored (σ.move p) = σ.move (s.source.skipIgnored p)
  visible : ∀ {n r p}, answered n r p → ¬hidden r
  deeper : ∀ {n m r p}, n ≤ m → answered n r p → answered m r p
  body : ∀ {n r p}, answered (n + 1) r p → s.source.IsPlace p →
    s.grammar.rule? r = none ∧ s'.grammar.rule? r = none ∨
      ∃ d d', s.grammar.rule? r = some d ∧ s'.grammar.rule? r = some d' ∧
        s.Extends s' hidden (answered n) (0 < n) p d.body d'.body

namespace Counterpart

variable {s s' : Session} (k : Counterpart s s')

/-- `s'` is asked for nothing that `s` is not asked for. -/
def Exact : Prop := ∀ r, ¬k.hidden r

/-- Runs of the two that are alike. -/
structure Runs (run run' : Run) : Prop where
  lexer : run.lexer.ReadFrom s.source s.source.IsPlace
  lexer' : run'.lexer.ReadFrom s'.source s'.source.IsPlace
  memo : ∀ p r, ¬k.hidden r →
    run'.memo.find? (k.σ.move p) r = (run.memo.find? p r).map (·.relocate k.σ)
  failed : ∀ q r finding, k.hidden r → run'.memo.find? q r = some finding →
    ∃ f, finding = .failed f ∧ f.isAbsorbable = true
  arena : run'.arena = run.arena.relocate k.σ
  frames : run'.frames = run.frames
  settled : ∀ p r id, run.memo.find? p r = some (.succeeded id) → id < run.arena.size ∧
    ∀ q ∈ run.arena.output id, s.source.IsPlace q ∧ s.Ends (.nonterminal r) p q
  exact : k.Exact → run'.stats = run.stats ∧ run'.furthest = run.furthest.map k.σ.move

namespace Runs

variable {k} {run run' : Run} {p : Position} {r : RuleId}

theorem fresh : k.Runs {} {} where
  lexer := Lexer.readFrom_empty
  lexer' := Lexer.readFrom_empty
  memo p r _ := by simp [Memo.find?]
  failed q r finding _ h := by simp [Memo.find?] at h
  arena := by simp [Arena.relocate]
  frames := rfl
  settled p r id h := by simp [Memo.find?] at h
  exact _ := ⟨rfl, rfl⟩

/-- Counting the same on both sides. -/
theorem count (h : k.Runs run run') (stats : Stats → Stats) :
    k.Runs { run with stats := stats run.stats } { run' with stats := stats run'.stats } :=
  ⟨h.lexer, h.lexer', h.memo, h.failed, h.arena, h.frames, h.settled, fun he =>
    ⟨congrArg stats (h.exact he).1, (h.exact he).2⟩⟩

theorem countMemoHit (h : k.Runs run run') : k.Runs run.countMemoHit run'.countMemoHit :=
  h.count fun stats => { stats with memoHits := stats.memoHits + 1 }

theorem countLeftRecursion (h : k.Runs run run') :
    k.Runs run.countLeftRecursion run'.countLeftRecursion :=
  h.count fun stats => { stats with leftRecursionHits := stats.leftRecursionHits + 1 }

theorem noteFailure (h : k.Runs run run') (p : Position) :
    k.Runs (run.noteFailure p) (run'.noteFailure (k.σ.move p)) := by
  refine ⟨h.lexer, h.lexer', h.memo, h.failed, h.arena, h.frames, h.settled, fun he =>
    ⟨(h.exact he).1, ?_⟩⟩
  rw [Run.noteFailure, Run.noteFailure, (h.exact he).2]
  cases run.furthest with
  | none => rfl
  | some q => exact congrArg some Relocation.move_max.symm

theorem reason (h : k.Runs run run') :
    (Failure.noPath (run'.frames.head?.map (·.rule)) (k.σ.move p)) =
      (Failure.noPath (run.frames.head?.map (·.rule)) p).relocate k.σ := by
  rw [h.frames]
  rfl

/-- What `s'` alone does may not be told apart from nothing where a rule is hidden. -/
theorem aside (h : k.Runs run run') (hr : k.hidden r) {lexer : Lexer} {memo : Memo}
    {stats : Stats} {furthest : Option Position}
    (hlexer : lexer.ReadFrom s'.source s'.source.IsPlace)
    (hmemo : ∀ q r, ¬k.hidden r → memo.find? q r = run'.memo.find? q r)
    (hfailed : ∀ q r finding, k.hidden r → memo.find? q r = some finding →
      ∃ f, finding = .failed f ∧ f.isAbsorbable = true) :
    k.Runs run { run' with lexer, memo, stats, furthest } :=
  ⟨h.lexer, hlexer, fun p r hr => (hmemo _ r hr).trans (h.memo p r hr), hfailed, h.arena,
    h.frames, h.settled, fun he => absurd hr (he r)⟩

theorem readToken (h : k.Runs run run') (hp : s.source.IsPlace p) :
    Ensures (readToken s'.source (k.σ.move p)) run' fun result' after' =>
      Ensures (readToken s.source p) run fun result after => k.Runs after after' ∧
        result = .ok (s.source.token p) ∧
        result' = .ok (relocateRead k.σ (s.source.token p)) := by
  refine Search.ensures_readToken.mpr (Search.ensures_readToken.mpr ⟨?_, ?_, ?_⟩)
  · have hread := Lexer.next_spec (l := run.lexer.restore p) h.lexer hp
    have hread' := Lexer.next_spec (l := run'.lexer.restore (k.σ.move p)) h.lexer' (k.place hp)
    exact ⟨hread.readFrom, hread'.readFrom, h.memo, h.failed, h.arena, h.frames, h.settled, h.exact⟩
  · rw [Lexer.next_eq_token (l := run.lexer.restore p) h.lexer hp]
    rfl
  · rw [← k.token hp, Lexer.next_eq_token (l := run'.lexer.restore (k.σ.move p)) h.lexer'
      (k.place hp)]
    rfl

section Record

theorem memo_record {memo memo' : Memo}
    (h : ∀ p r, ¬k.hidden r → memo'.find? (k.σ.move p) r = (memo.find? p r).map (·.relocate k.σ))
    (finding : Finding) (q : Position) (r' : RuleId) (hr' : ¬k.hidden r') :
    (memo'.record (k.σ.move p) r (finding.relocate k.σ)).find? (k.σ.move q) r' =
      ((memo.record p r finding).find? q r').map (·.relocate k.σ) := by
  simp only [Memo.find?_record, Relocation.move_inj]
  split
  · rfl
  · exact h q r' hr'

variable (hr : ¬k.hidden r)
include hr

theorem failed_record (h : k.Runs run run') (finding : Finding) (q q' : Position) (r' : RuleId)
    (found : Finding) (hr' : k.hidden r')
    (hm : (run'.memo.record q r finding).find? q' r' = some found) :
    ∃ f, found = .failed f ∧ f.isAbsorbable = true := by
  rw [Memo.find?_record, if_neg] at hm
  · exact h.failed q' r' found hr' hm
  · exact fun heq => hr (heq.2 ▸ hr')

theorem enter (h : k.Runs run run') (p : Position) :
    k.Runs (run.enter r p) (run'.enter r (k.σ.move p)) where
  lexer := h.lexer
  lexer' := h.lexer'
  memo := memo_record h.memo .inProgress
  failed := h.failed_record hr .inProgress _
  arena := h.arena
  frames := congrArg (Frame.mk r [] :: ·) h.frames
  settled q r' id hm := by
    rw [show (run.enter r p).memo = run.memo.record p r .inProgress from rfl,
      Memo.find?_record] at hm
    split at hm
    · cases hm
    · exact h.settled q r' id hm
  exact he := by
    refine ⟨?_, (h.exact he).2⟩
    rw [Run.enter, Run.enter, (h.exact he).1, h.frames]

theorem fail (h : k.Runs run run') (p : Position) (f : Failure) :
    k.Runs (run.fail r p f) (run'.fail r (k.σ.move p) (f.relocate k.σ)) where
  lexer := h.lexer
  lexer' := h.lexer'
  memo := memo_record h.memo (.failed f)
  failed := h.failed_record hr (.failed (f.relocate k.σ)) _
  arena := h.arena
  frames := congrArg List.tail h.frames
  settled q r' id hm := by
    rw [show (run.fail r p f).memo = run.memo.record p r (.failed f) from rfl,
      Memo.find?_record] at hm
    split at hm
    · cases hm
    · exact h.settled q r' id hm
  exact he := h.exact he

theorem succeed (h : k.Runs run run') (p : Position) {out : PathSet}
    (hout : ∀ q ∈ out, s.source.IsPlace q ∧ s.Ends (.nonterminal r) p q) :
    (run'.succeed r (k.σ.move p) (out.relocate k.σ)).1 = (run.succeed r p out).1 ∧
      k.Runs (run.succeed r p out).2 (run'.succeed r (k.σ.move p) (out.relocate k.σ)).2 := by
  have halloc := Arena.alloc_relocate (σ := k.σ) (a := run.arena)
    { rule := r, start := p, output := out,
      children := ((run.frames.head?.map (·.children)).getD []).reverse }
  have hsize : run'.arena.size = run.arena.size := by rw [h.arena, Arena.size_relocate]
  refine ⟨hsize, ?_⟩
  constructor
  case lexer => exact h.lexer
  case lexer' => exact h.lexer'
  case memo =>
    rw [Run.succeed, Run.succeed]
    simp only [show (run'.arena.alloc _).1 = run.arena.size from hsize]
    exact memo_record h.memo (.succeeded run.arena.size)
  case failed => exact h.failed_record hr _ _
  case arena =>
    rw [Run.succeed, Run.succeed, h.frames, h.arena]
    exact congrArg Prod.snd halloc
  case frames =>
    rw [Run.succeed, Run.succeed, h.frames]
    exact congrArg (Run.attach · run.frames.tail) hsize
  case settled =>
    intro q r' id hm
    rw [(run.succeed_records r p out).find?] at hm
    have hsize : (run.succeed r p out).2.arena.size = run.arena.size + 1 := Arena.size_alloc _ _
    rw [Arena.output_eq, Run.derived?_succeed, hsize]
    split at hm
    · next heq =>
        obtain ⟨rfl, rfl⟩ := heq
        cases hm
        rw [if_pos rfl]
        exact ⟨Nat.lt_succ_self _, hout⟩
    · obtain ⟨hid, hleads⟩ := h.settled q r' id hm
      rw [if_neg (Nat.ne_of_lt hid), ← Arena.output_eq]
      exact ⟨Nat.lt_succ_of_lt hid, hleads⟩
  case exact => exact fun he => h.exact he

end Record
end Runs
variable {k : Counterpart s s'} {run run' : Run} {p : Position} {r : RuleId} {n : Nat}

variable (k) in
/-- Runs are alike, and failures the same. -/
def comparison : Comparison Run where
  states := k.Runs
  failures f g := g = f.relocate k.σ
  counts _ := True
  absorbable_eq h := by rw [h, Failure.isAbsorbable_relocate]
  counts_of_absorbable _ := trivial

variable (k) in
/-- References are answered alike with `n` levels left. -/
def Answers (n : Nat) (resolve resolve' : Resolver) : Prop :=
  ∀ r p run run', k.answered n r p → s.source.IsPlace p → k.Runs run run' →
    Agrees k.comparison
      (Moved k.σ fun out => ∀ q ∈ out, s.source.IsPlace q ∧ s.Ends (.nonterminal r) p q)
      (resolve r p) (resolve' r (k.σ.move p)) run run'

variable (k) in
/-- What is done aside from `s` fails, and a rule may bear that. -/
def Fails {α : Type} (x : Search α) (run run' : Run) : Prop :=
  Ensures x run' fun result after' =>
    k.Runs run after' ∧ ∃ f, result = .error f ∧ f.isAbsorbable = true

variable (k) in
/-- References to missing rules fail. -/
def Passes (resolve' : Resolver) : Prop :=
  ∀ r p run run', s.Misses s' k.hidden r p → s.source.IsPlace p → k.Runs run run' →
    k.Fails (resolve' r (k.σ.move p)) run run'

variable (k) in
include k in
/-- A set of paths is never larger than a source that is behind all of it has positions, so the
sessions reach their bounds together. -/
theorem rounds {input : PathSet} (hne : input ≠ ∅) (run run' : Run) :
    Rounds (fun paths => ∀ p ∈ paths, s.source.IsPlace p) input (s.pathBound run)
      (s'.pathBound run') := by
  have hpos : input.size ≠ 0 := fun hzero =>
    hne (Std.ExtTreeSet.eq_empty_iff_size_eq_zero.mpr hzero)
  have hlength := k.length_eq
  refine .inr ⟨s.source.length + 1, fun _ => Source.size_le_of_places,
    Session.length_lt_pathBound hne run, ?_⟩
  unfold Session.pathBound
  omega

section Evaluation
variable {resolve resolve' : Resolver}

/-- The correspondence of evaluations whose references are answered alike. -/
def correspondence (hres : k.Answers n resolve resolve') :
    Correspondence s s' resolve resolve' where
  toComparison := k.comparison
  σ := k.σ
  place := s.source.IsPlace
  reads p t := s.source.token p = .ok t
  refers r := s.Ends (.nonterminal r)
  asked
    | .token _ => True
    | .reference r p => k.answered n r p
  reason _ h := h.reason
  note p h := h.noteFailure p
  read _ hp h := by
    refine (h.readToken hp).mono fun result' after' hpost _ =>
      hpost.mono fun result after hpost => ?_
    obtain ⟨hruns, rfl, rfl⟩ := hpost
    exact ⟨hruns, .ok ⟨rfl, fun t ht => ⟨ht, hp.of_token ht⟩⟩⟩
  answer hasked hp h := hres _ _ _ _ hasked hp h
  rounds hne _ _ := k.rounds hne _ _

/-- Paths found from a set of paths. -/
def Found (s : Session) (rule : Rule) (input out : PathSet) : Prop :=
  out ≠ ∅ ∧ ∀ q ∈ out, s.source.IsPlace q ∧ ∃ p ∈ input, s.Ends rule p q

theorem evaluate_alike (hres : k.Answers n resolve resolve') (rule : Rule) {input : PathSet}
    (hswitched : SwitchedAlike s.grammar s'.grammar rule) (hne : input ≠ ∅)
    (hplace : ∀ p ∈ input, s.source.IsPlace p)
    (hasks : ∀ p ∈ input, ∀ r m, s.Asks rule p (.reference r m) → k.answered n r m)
    (hruns : k.Runs run run') :
    Agrees k.comparison (Moved k.σ (Found s rule input)) (s.evaluate resolve rule input)
      (s'.evaluate resolve' rule (input.relocate k.σ)) run run' := by
  refine Agrees.mono (Correspondence.evaluate_alike (c := correspondence hres) rule input run run'
    hswitched hne hplace ?_ hruns) ?_
  · intro p hp x hx
    cases x with
    | token m => trivial
    | reference r m => exact hasks p hp r m hx
  · intro out out' hmoved
    obtain ⟨heq, hne, hout⟩ := hmoved
    refine ⟨heq, hne, fun q hq => ?_⟩
    obtain ⟨hplace, p, hp, hleads⟩ := hout q hq
    exact ⟨hplace, p, hp, Session.ends_iff_leads.mpr hleads⟩

/-- Searches of which each fails find nothing together. -/
theorem unite_fails (input : PathSet) (xs : List (Search PathSet)) (cause : Option Failure)
    (hxs : ∀ x ∈ xs, ∀ run', k.Runs run run' → k.Fails x run run')
    (hcause : ∀ f, cause = some f → f.isAbsorbable = true) (hruns : k.Runs run run') :
    k.Fails (Session.unite input xs ∅ cause) run run' := by
  induction xs generalizing cause run' with
  | nil =>
      simp only [Session.unite, Std.ExtTreeSet.isEmpty_empty, if_true]
      cases cause with
      | none => exact Search.ensures_noPath.mpr ⟨hruns, _, rfl, rfl⟩
      | some f => exact ensures_throw.mpr ⟨hruns, f, rfl, hcause f rfl⟩
  | cons x xs ih =>
      rw [Session.unite]
      refine ensures_bind.mpr (Search.ensures_attempt.mpr
        ((hxs x (by simp) run' hruns).mono fun result after' hpost => ?_))
      obtain ⟨hruns, f, rfl, hf⟩ := hpost
      dsimp only
      rw [if_pos hf]
      exact ih (some f) (fun y hy => hxs y (by simp [hy])) (by simpa using hf) hruns

/-- An optional reference to a missing rule leads nowhere. -/
theorem evaluate_idle (hpass : k.Passes resolve') {paths : PathSet}
    (hmiss : ∀ p ∈ paths, s.source.IsPlace p ∧ s.Misses s' k.hidden r p)
    (hruns : k.Runs run run') :
    Ensures (s'.evaluate resolve' (.optional (.nonterminal r)) (paths.relocate k.σ)) run'
      fun result after' => k.Runs run after' ∧ result = .ok (paths.relocate k.σ) := by
  rw [Session.evaluate, Session.evaluate]
  refine ensures_bind.mpr (Search.ensures_attempt.mpr
    (Ensures.mono (unite_fails _ _ none ?_ nofun hruns) fun result after' hpost => ?_))
  · intro x hx run' hruns
    rw [PathSet.toList_relocate, List.map_map] at hx
    obtain ⟨p, hp, rfl⟩ := List.mem_map.mp hx
    obtain ⟨hplace, hmiss⟩ := hmiss p (Std.ExtTreeSet.mem_toList.mp hp)
    exact hpass r p run run' hmiss hplace hruns
  · obtain ⟨hruns, f, rfl, hf⟩ := hpost
    dsimp only
    rw [if_pos hf]
    exact ensures_pure.mpr ⟨hruns, rfl⟩

/-- The bodies of a rule are evaluated alike. -/
theorem body_alike (hres : k.Answers n resolve resolve') (hpass : 0 < n → k.Passes resolve')
    {body body' : Rule} (hbody : s.Extends s' k.hidden (k.answered n) (0 < n) p body body')
    (hp : s.source.IsPlace p) (hruns : k.Runs run run') :
    Agrees k.comparison
      (Moved k.σ fun out => out ≠ ∅ ∧ ∀ q ∈ out, s.source.IsPlace q ∧ s.Ends body p q)
      (s.evaluate resolve body {p}) (s'.evaluate resolve' body' {k.σ.move p}) run run' := by
  have hne : ({p} : PathSet) ≠ ∅ := SortedSet.ne_empty_iff.mpr ⟨p, by simp⟩
  have hplace : ∀ q ∈ ({p} : PathSet), s.source.IsPlace q := fun q hq =>
    SortedSet.mem_singleton.mp hq ▸ hp
  rw [← PathSet.relocate_singleton]
  cases hbody with
  | same hswitched hasks =>
      refine (evaluate_alike hres body hswitched hne hplace (by simpa using hasks) hruns).mono
        fun out out' hmoved => ⟨hmoved.1, hmoved.2.1, by simpa using hmoved.2.2⟩
  | @idle front back r hdeep _ hswitched hasks hmiss =>
      let c := correspondence hres
      have hends {rule : Rule} {p q : Position} : c.Leads rule p q ↔ s.Ends rule p q :=
        Session.ends_iff_leads.symm
      have hadmits (x : Question) (hx : s.Asks (.sequence (front ++ back)) p x) : c.asked x := by
        cases x with
        | token m => trivial
        | reference r m => exact hasks r m hx
      have hitem (item : Rule) (hi : item ∈ front ∨ item ∈ back) :
          SwitchedAlike s.grammar s'.grammar item :=
        hswitched.of_sequence (List.mem_append.mpr hi)
      rw [Session.evaluate, Session.evaluate, Session.evaluateItems_append,
        Session.evaluateItems_append]
      refine Agrees.bind (Correspondence.evaluateItems_alike (c := c) front {p} run run'
        (fun i hi => hitem i (.inl hi)) hne hplace (fun q hq x hx => ?_) hruns) ?_
      · obtain rfl := SortedSet.mem_singleton.mp hq
        exact hadmits x hx.front
      intro paths _ after after' hruns hmoved
      obtain ⟨rfl, hpaths, hleads⟩ := hmoved
      have hfront (m : Position) (hm : m ∈ paths) :
          s.source.IsPlace m ∧ c.Leads (.sequence front) p m := by
        obtain ⟨hm, q, hq, hl⟩ := hleads m hm
        exact ⟨hm, SortedSet.mem_singleton.mp hq ▸ hl⟩
      rw [Session.evaluateItems]
      refine Agrees.aside (evaluate_idle (hpass hdeep) (fun m hm =>
        ⟨(hfront m hm).1, hmiss m (hends.mp (hfront m hm).2)⟩) hruns) fun after' hruns => ?_
      refine Agrees.mono (Correspondence.evaluateItems_alike (c := c) back paths after after'
        (fun i hi => hitem i (.inr hi)) hpaths (fun m hm => (hfront m hm).1) (fun m hm x hx => ?_)
        hruns) ?_
      · exact hadmits x (.behind (hfront m hm).2 hx)
      · intro out _ hmoved
        refine ⟨hmoved.1, hmoved.2.1, fun q hq => ?_⟩
        obtain ⟨hq, m, hm, hl⟩ := hmoved.2.2 q hq
        exact ⟨hq, hends.mp ((hfront m hm).2.append hl)⟩

end Evaluation

section Derivation

theorem toList_singleton (q : Position) : ({q} : PathSet).toList = [q] := by
  refine List.eq_of_ordered (fun p => p) Std.ExtTreeSet.ordered_toList
    (List.pairwise_singleton _ _) fun p => ?_
  simp [@eq_comm _ p]

/-- A body that begins with a token that is not there fails, and only the lexer and the furthest
failure may change. -/
theorem evaluate_missing {s : Session} {resolve : Resolver} {tag : TagId} {rest : List Rule}
    {q : Position} {run : Run} (hq : s.source.IsPlace q)
    (hlexer : run.lexer.ReadFrom s.source s.source.IsPlace)
    (hmiss : ∀ t, s.source.token q = .ok t → t.hasTag tag = false) :
    Ensures (s.evaluate resolve (.sequence (.terminal tag :: rest)) {q}) run fun result after =>
      (∃ lexer furthest, lexer.ReadFrom s.source s.source.IsPlace ∧
        after = { run with lexer, furthest }) ∧ ∃ f, result = .error f ∧ f.isAbsorbable = true := by
  have hread := Lexer.next_spec (l := run.lexer.restore q) hlexer hq
  have htoken : ((run.lexer.restore q).next s.source).1 = s.source.token q :=
    Lexer.next_eq_token (l := run.lexer.restore q) hlexer hq
  have hnote (p : Position) (lexer : Lexer) (hlexer : lexer.ReadFrom s.source s.source.IsPlace) :
      Ensures (do modify (·.noteFailure p); pure ∅ : Search PathSet) { run with lexer }
        fun result after => result = .ok ∅ ∧ ∃ lexer furthest,
          lexer.ReadFrom s.source s.source.IsPlace ∧ after = { run with lexer, furthest } :=
    ensures_bind.mpr (ensures_modify.mpr (ensures_pure.mpr ⟨rfl, _, _, hlexer, rfl⟩))
  have hadvance : Ensures (s.advance tag ∅ q) run fun result after =>
      result = .ok ∅ ∧ ∃ lexer furthest,
        lexer.ReadFrom s.source s.source.IsPlace ∧ after = { run with lexer, furthest } := by
    refine ensures_bind.mpr (Search.ensures_readToken.mpr ?_)
    rw [htoken]
    dsimp only
    cases ht : s.source.token q with
    | error e => exact hnote e.position _ hread.readFrom
    | ok t =>
        dsimp only
        rw [if_neg (by simp [hmiss t ht])]
        exact hnote t.span.start _ hread.readFrom
  rw [Session.evaluate, Session.evaluateItems, Session.evaluate, Session.terminal,
    toList_singleton]
  refine ensures_bind.mpr (ensures_bind.mpr (ensures_bind.mpr (hadvance.mono ?_)))
  intro result after hpost
  obtain ⟨rfl, hafter⟩ := hpost
  refine ensures_pure.mpr ?_
  dsimp only
  rw [if_pos Std.ExtTreeSet.isEmpty_empty]
  exact Search.ensures_noPath.mpr ⟨hafter, _, rfl, rfl⟩

/-- Deriving a missing rule fails. -/
theorem deriveWithin_fails (hn : 0 < n) (hmiss : s.Misses s' k.hidden r p)
    (hp : s.source.IsPlace p) (hruns : k.Runs run run') :
    k.Fails (s'.deriveWithin n r (k.σ.move p)) run run' := by
  obtain ⟨hr, name, tag, rest, hrule, htag⟩ := hmiss
  obtain ⟨n, rfl⟩ := Nat.exists_eq_succ_of_ne_zero (Nat.ne_of_gt hn)
  have hmemo (q : Position) (r' : RuleId) (finding : Finding) (hr' : ¬k.hidden r') (m : Memo) :
      (m.record (k.σ.move p) r finding).find? q r' = m.find? q r' := by
    rw [Memo.find?_record, if_neg]
    exact fun heq => hr' (heq.2 ▸ hr)
  refine Session.ensures_consult.mpr ?_
  split
  · next hm =>
      obtain ⟨f, hf, -⟩ := hruns.failed _ _ _ hr hm
      cases hf
  · next hm =>
      obtain ⟨f, hf, habsorbable⟩ := hruns.failed _ _ _ hr hm
      cases hf
      exact ⟨hruns.aside hr hruns.lexer' (fun _ _ _ => rfl) hruns.failed, _, rfl, habsorbable⟩
  · next hm =>
      obtain ⟨f, hf, -⟩ := hruns.failed _ _ _ hr hm
      cases hf
  · have hmiss' : ∀ t, s'.source.token (k.σ.move p) = .ok t → t.hasTag tag = false := by
      intro t ht
      rw [k.token hp] at ht
      cases hread : s.source.token p with
      | error e =>
          rw [hread] at ht
          cases ht
      | ok t' =>
          rw [hread] at ht
          cases ht
          exact htag t' hread
    rw [Session.ensures_deriveFresh, hrule]
    refine Ensures.mono (evaluate_missing (k.place hp) hruns.lexer' hmiss') ?_
    intro result after hpost
    obtain ⟨⟨lexer, furthest, hlexer, rfl⟩, f, rfl, hf⟩ := hpost
    refine ⟨?_, f, rfl, hf⟩
    refine hruns.aside hr hlexer (fun q r' hr' => ?_) fun q r' finding hr' hm => ?_
    · exact (hmemo q r' _ hr' _).trans (hmemo q r' _ hr' _)
    · rw [Memo.find?_record] at hm
      split at hm
      · cases hm
        exact ⟨f, rfl, hf⟩
      · next hne =>
          rw [Run.enter, Memo.find?_record, if_neg hne] at hm
          exact hruns.failed q r' finding hr' hm

theorem deriveWithin_passes (hn : 0 < n) :
    k.Passes fun r q => s'.deriveWithin n r q >>= outputOf := by
  intro r p run run' hmiss hp hruns
  refine ensures_bind.mpr ((deriveWithin_fails hn hmiss hp hruns).mono fun result _ hpost => ?_)
  obtain ⟨hruns, f, rfl, hf⟩ := hpost
  exact ⟨hruns, f, rfl, hf⟩

theorem consult_alike (hr : ¬k.hidden r) (hruns : k.Runs run run')
    {fresh fresh' : Search NodeId}
    (hfresh : Agrees k.comparison (fun id id' => id' = id) fresh fresh' run run') :
    Agrees k.comparison (fun id id' => id' = id) (Session.consult r p fresh)
      (Session.consult r (k.σ.move p) fresh') run run' := by
  unfold Agrees
  simp only [Session.ensures_consult, hruns.memo p r hr]
  cases run.memo.find? p r with
  | none => exact hfresh
  | some finding =>
      cases finding with
      | inProgress => exact fun _ => ⟨hruns.countLeftRecursion, .error rfl⟩
      | succeeded id => exact fun _ => ⟨hruns.countMemoHit, .ok rfl⟩
      | failed f => exact fun _ => ⟨hruns.countMemoHit, .error rfl⟩

theorem deriveFresh_alike {resolve resolve' : Resolver} (hres : k.Answers n resolve resolve')
    (hpass : 0 < n → k.Passes resolve') (hanswered : k.answered (n + 1) r p)
    (hp : s.source.IsPlace p) (hruns : k.Runs run run') :
    Agrees k.comparison (fun id id' => id' = id) (s.deriveFresh resolve r p)
      (s'.deriveFresh resolve' r (k.σ.move p)) run run' := by
  have hr := k.visible hanswered
  unfold Agrees
  simp only [Session.ensures_deriveFresh]
  obtain ⟨hdef, hdef'⟩ | ⟨d, d', hdef, hdef', hbody⟩ := k.body hanswered hp
  · rw [hdef, hdef']
    exact fun _ => ⟨hruns, .error rfl⟩
  · rw [hdef, hdef']
    refine Ensures.mono (body_alike hres hpass hbody hp (hruns.enter hr p)) ?_
    intro result' after' hbody
    cases result' with
    | ok out' =>
        refine fun _ => (hbody (Comparison.heeds_ok out')).mono fun result after hpost => ?_
        obtain ⟨hruns, hmoved⟩ := hpost
        cases hmoved with
        | ok hmoved =>
            obtain ⟨rfl, -, hout⟩ := hmoved
            obtain ⟨hid, hruns⟩ := hruns.succeed hr p fun q hq =>
              ⟨(hout q hq).1, .nonterminal hdef (hout q hq).2⟩
            exact ⟨hruns, .ok hid⟩
    | error f' =>
        refine fun _ => (hbody fun _ _ => trivial).mono fun result after hpost => ?_
        obtain ⟨hruns, hmoved⟩ := hpost
        cases hmoved with
        | @error f _ hf =>
            obtain rfl : f' = f.relocate k.σ := hf
            exact ⟨hruns.fail hr p f, .error rfl⟩

/-- A derived node is the one that the rule then has. -/
theorem deriveWithin_settles (s : Session) (n : Nat) (r : RuleId) (p : Position) (run : Run) :
    Ensures (s.deriveWithin n r p) run fun result run' => ∀ id, result = .ok id →
      run'.memo.find? p r = some (.succeeded id) := by
  have hconsult (fresh : Search NodeId) (hfresh : run.memo.find? p r = none →
      Ensures fresh run fun result run' => ∀ id, result = .ok id →
        run'.memo.find? p r = some (.succeeded id)) :
      Ensures (Session.consult r p fresh) run fun result run' => ∀ id, result = .ok id →
        run'.memo.find? p r = some (.succeeded id) := by
    refine Session.ensures_consult.mpr ?_
    split
    · next hm =>
        intro id hid
        cases hid
        exact hm
    · nofun
    · nofun
    · next hnone => exact hfresh hnone
  cases n with
  | zero => exact hconsult _ fun _ => ensures_throw.mpr nofun
  | succ n =>
      refine hconsult _ fun _ => ?_
      refine Session.ensures_deriveFresh.mpr ?_
      split
      · nofun
      · refine Ensures.of_forall fun result run' => ?_
        cases result with
        | error f => nofun
        | ok out =>
            intro id hid
            cases hid
            rw [(run'.succeed_records r p out).find?, if_pos ⟨rfl, rfl⟩]
            rfl

theorem outputOf_alike {x y : Search NodeId}
    (hx : Ensures x run fun result after => ∀ id, result = .ok id →
      after.memo.find? p r = some (.succeeded id))
    (h : Agrees k.comparison (fun id id' => id' = id) x y run run') :
    Agrees k.comparison
      (Moved k.σ fun out => ∀ q ∈ out, s.source.IsPlace q ∧ s.Ends (.nonterminal r) p q)
      (x >>= outputOf) (y >>= outputOf) run run' := by
  refine h.bind_with hx fun id _ after after' hruns heq hm => ?_
  obtain rfl := heq
  refine Search.ensures_outputOf.mpr fun _ => Search.ensures_outputOf.mpr ⟨hruns, .ok ⟨?_, ?_⟩⟩
  · rw [hruns.arena, Arena.output_relocate]
  · exact (hruns.settled p r _ hm).2

variable (k) in
/-- Derivations go alike. -/
theorem deriveWithin_alike (n : Nat) {r : RuleId} {p : Position} {run run' : Run}
    (hanswered : k.answered n r p) (hp : s.source.IsPlace p) (hruns : k.Runs run run') :
    Agrees k.comparison (fun id id' => id' = id) (s.deriveWithin n r p)
      (s'.deriveWithin n r (k.σ.move p)) run run' := by
  induction n generalizing r p run run' with
  | zero => exact consult_alike (k.visible hanswered) hruns (.throw hruns rfl)
  | succ n ih =>
      refine consult_alike (k.visible hanswered) hruns
        (deriveFresh_alike ?_ deriveWithin_passes hanswered hp hruns)
      exact fun r p run run' hanswered hp hruns =>
        outputOf_alike (deriveWithin_settles s n r p run) (ih hanswered hp hruns)

variable (k) in
theorem answers (n : Nat) : k.Answers n (fun r q => s.deriveWithin n r q >>= outputOf)
    fun r q => s'.deriveWithin n r q >>= outputOf :=
  fun r p run _ hanswered hp hruns =>
    outputOf_alike (deriveWithin_settles s n r p run) (k.deriveWithin_alike n hanswered hp hruns)

/-- How many levels are left in two runs that are alike. -/
theorem Runs.depth_eq (h : k.Runs run run') :
    s'.maxDepth - run'.frames.length = s.maxDepth - run.frames.length := by
  rw [k.maxDepth_eq, h.frames]

theorem derive_alike (hanswered : k.answered (s.maxDepth - run.frames.length) r p)
    (hp : s.source.IsPlace p) (hruns : k.Runs run run') :
    Agrees k.comparison (fun id id' => id' = id) (s.derive r p) (s'.derive r (k.σ.move p)) run
      run' := by
  unfold Agrees
  simp only [Session.ensures_derive, hruns.depth_eq]
  exact k.deriveWithin_alike _ hanswered hp hruns

theorem follow_alike (rule : Rule) {input : PathSet}
    (hswitched : SwitchedAlike s.grammar s'.grammar rule) (hne : input ≠ ∅)
    (hplace : ∀ p ∈ input, s.source.IsPlace p)
    (hasks : ∀ p ∈ input, ∀ r m, s.Asks rule p (.reference r m) →
      k.answered (s.maxDepth - run.frames.length) r m) (hruns : k.Runs run run') :
    Agrees k.comparison (Moved k.σ (Found s rule input)) (s.follow rule input)
      (s'.follow rule (input.relocate k.σ)) run run' := by
  unfold Agrees
  simp only [Session.ensures_follow, hruns.depth_eq]
  exact evaluate_alike (k.answers _) rule hswitched hne hplace hasks hruns

end Derivation

end Counterpart
end Multipath
