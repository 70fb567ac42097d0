import Mathlib.Logic.Relation
import Multipath.Proofs.Productions
import Multipath.Proofs.Punctuation
import Multipath.Proofs.Selection

/-!
Where productions of Aether begin and end. A semicolon is no part of a selection or of a header, so
a production ends behind the first one, and the boundaries between the productions of a text are
fixed. Likewise a header ends with the first colon, and no token in front of that is a greater-than
sign.
-/

namespace Multipath

open Relation (ReflTransGen)

namespace Session

variable {s : Session} {body : Rule} {items items' : List Rule} {r : RuleId}
  {definition : Grammar.Definition} {p q : Position}

theorem Ends.of_rule? (h : s.Ends (.nonterminal r) p q)
    (hdef : s.grammar.rule? r = some definition) : s.Ends definition.body p q := by
  cases h with
  | nonterminal hdef' h =>
      obtain rfl := Option.some.inj (hdef.symm.trans hdef')
      exact h

theorem Ends.split (h : s.Ends (.sequence (items ++ items')) p q) :
    ∃ m, s.Ends (.sequence items) p m ∧ s.Ends (.sequence items') m q := by
  induction items generalizing p with
  | nil => exact ⟨p, .nil, h⟩
  | cons item items ih =>
      cases h with
      | cons hitem h =>
          obtain ⟨m, hitems, h⟩ := ih h
          exact ⟨m, .cons hitem hitems, h⟩

theorem Ends.single {item : Rule} (h : s.Ends (.sequence [item]) p q) : s.Ends item p q := by
  cases h with
  | cons hitem h =>
      cases h
      exact hitem

theorem Ends.pair {item item' : Rule} (h : s.Ends (.sequence [item, item']) p q) :
    ∃ m, s.Ends item p m ∧ s.Ends item' m q := by
  cases h with
  | cons hitem h => exact ⟨_, hitem, h.single⟩

theorem Ends.token_of_terminal {tag : TagId} (h : s.Ends (.terminal tag) p q) :
    ∃ t, s.source.token p = .ok t ∧ t.hasTag tag = true ∧ q = t.span.stop := by
  cases h with
  | terminal ht htag => exact ⟨_, ht, htag, rfl⟩

theorem ends_repetition_iff :
    s.Ends (.repetition body) p q ↔ ReflTransGen (s.Ends body) p q := by
  constructor
  · intro h
    generalize hrule : Rule.repetition body = rule at h
    induction h with
    | stop => exact .refl
    | again hbody _ _ ih =>
        cases hrule
        exact .head hbody (ih rfl)
    | _ => cases hrule
  · intro h
    induction h using ReflTransGen.head_induction_on with
    | refl => exact .stop
    | head hbody _ ih => exact .again hbody ih

end Session

namespace Aether

open Production (condition specifiers selection disjunction specifierList sequence conjunction
  specifier iteration primary negation optional primitive)

/-- Other tags than these are not on semicolons, colons and greater-than signs. -/
theorem standsFor_punctuation {lexicon : Lexicon} (h : Aether.lexicon = .ok lexicon) :
    lexicon.standsFor Tag.semicolon ';' [Tag.semicolon] = true ∧
      lexicon.standsFor Tag.colon ':' [Tag.colon, Tag.ordChar] = true ∧
      lexicon.standsFor Tag.greaterThan '>' [Tag.greaterThan, Tag.ordChar] = true := by
  have hall : Aether.lexicon.toOption.map (fun l =>
      l.standsFor Tag.semicolon ';' [Tag.semicolon] &&
        (l.standsFor Tag.colon ':' [Tag.colon, Tag.ordChar] &&
          l.standsFor Tag.greaterThan '>' [Tag.greaterThan, Tag.ordChar])) = some true := by
    decide +kernel
  simpa [h, Except.toOption] using hall

/-- Is on neither colons nor semicolons nor greater-than signs. -/
def frontTag (tag : TagId) : Bool :=
  tag ∉ [Tag.colon, Tag.semicolon, Tag.greaterThan, Tag.ordChar]

/-- Productions that a header refers to in front of its colon. -/
def frontProductions : List Production :=
  [condition, specifiers, disjunction, specifierList, conjunction, specifier, negation, primitive]

/-- Productions that a selection is made of. -/
def selectionProductions : List Production :=
  [condition, selection, disjunction, sequence, conjunction, iteration, primary, negation, optional,
    primitive]

/-- A session of Aether without the clause for precedences. -/
structure Plain (s : Session) : Prop where
  lexicon : Aether.lexicon = .ok s.grammar.lexicon
  grammar : ∃ features, Aether.precedences ∉ features ∧
    s.grammar = builtOn s.grammar.lexicon features

namespace Plain

variable {s : Session} {p q q' m : Position} {t : Token}

theorem rule? (h : Plain s) {x : Production} (hx : x ≠ .header) :
    s.grammar.rule? x.id = some ⟨x.name, x.rule⟩ := by
  obtain ⟨features, -, hs⟩ := h.grammar
  rw [hs, rule?_builtOn, x.built_eq hx]

theorem rule?_header (h : Plain s) : s.grammar.rule? Production.header.id =
    some ⟨Production.header.name, .sequence (headerFront ++ [.terminal Tag.colon])⟩ := by
  obtain ⟨features, hwithout, hs⟩ := h.grammar
  rw [hs, rule?_builtOn, Production.built_header_of_not_mem hwithout]

section Punctuation
variable (h : Plain s) (ht : s.source.token p = .ok t) {tag : TagId} (htag : t.hasTag tag = true)
include h ht htag

theorem not_semicolon (hother : tag ≠ Tag.semicolon) : t.hasTag Tag.semicolon = false := by
  have hstands := (standsFor_punctuation h.lexicon).1
  rw [← s.lexicon_eq] at hstands
  refine Bool.eq_false_iff.mpr fun hsemicolon => hother ?_
  exact List.mem_singleton.mp (Source.mem_company hstands ht hsemicolon htag)

theorem not_front_of_colon (hcolon : t.hasTag Tag.colon = true) :
    frontTag tag = false ∧ tag ≠ Tag.greaterThan := by
  have hstands := (standsFor_punctuation h.lexicon).2.1
  rw [← s.lexicon_eq] at hstands
  have hall : ∀ tag ∈ [Tag.colon, Tag.ordChar], frontTag tag = false ∧ tag ≠ Tag.greaterThan := by
    decide
  exact hall tag (Source.mem_company hstands ht hcolon htag)

theorem not_front_of_greaterThan (hgreater : t.hasTag Tag.greaterThan = true) :
    frontTag tag = false := by
  have hstands := (standsFor_punctuation h.lexicon).2.2
  rw [← s.lexicon_eq] at hstands
  have hall : ∀ tag ∈ [Tag.greaterThan, Tag.ordChar], frontTag tag = false := by decide
  exact hall tag (Source.mem_company hstands ht hgreater htag)

end Punctuation

/-- The tokens that a rule leads over have tags of a kind, if productions that it refers to mention
no other tags. -/
theorem tokens_of_ends (h : Plain s) (tags : TagId → Bool) (xs : List Production) {rule : Rule}
    (hxs : ∀ x ∈ xs, x ≠ .header ∧ x.rule.mentionsOnly tags (xs.map (·.id)).contains = true)
    (hrule : rule.mentionsOnly tags (xs.map (·.id)).contains = true) (hends : s.Ends rule p q) :
    ∃ ts, s.source.Chain p ts q ∧ ∀ t ∈ ts, ∃ tag, tags tag = true ∧ t.hasTag tag = true := by
  obtain ⟨ts, hchain, hgenerates⟩ := hends.generates
  refine ⟨ts, hchain, hgenerates.hasTag (fun r definition hr hdef => ?_) hrule⟩
  obtain ⟨x, hx, rfl⟩ := List.mem_map.mp (List.contains_iff_mem.mp hr)
  obtain ⟨hheader, hmentions⟩ := hxs x hx
  obtain rfl := Option.some.inj ((h.rule? hheader).symm.trans hdef)
  exact hmentions

theorem tokens_of_front (h : Plain s) (hends : s.Ends (.sequence headerFront) p m) :
    ∃ ts, s.source.Chain p ts m ∧ ∀ t ∈ ts, ∃ tag, frontTag tag = true ∧ t.hasTag tag = true :=
  h.tokens_of_ends frontTag frontProductions (by decide) (by decide) hends

theorem token_of_front (hends : s.Ends (.sequence headerFront) p m) :
    ∃ t, s.source.token p = .ok t := by
  cases hends with
  | cons hidentifier _ =>
      obtain ⟨t, ht, -⟩ := hidentifier.token_of_terminal
      exact ⟨t, ht⟩

theorem tokens_of_selection (h : Plain s) (hends : s.Ends (.nonterminal selection.id) p m) :
    ∃ ts, s.source.Chain p ts m ∧
      ∀ t ∈ ts, ∃ tag, (tag != Tag.semicolon) = true ∧ t.hasTag tag = true :=
  h.tokens_of_ends (· != Tag.semicolon) selectionProductions (by decide) (by decide) hends

/-- A production is a header with a colon and a selection with a semicolon. -/
theorem parts_of_production (h : Plain s)
    (hends : s.Ends (.nonterminal Production.production.id) p q) :
    ∃ m t m' t', s.Ends (.sequence headerFront) p m ∧ s.source.token m = .ok t ∧
      t.hasTag Tag.colon = true ∧ s.Ends (.nonterminal selection.id) t.span.stop m' ∧
      s.source.token m' = .ok t' ∧ t'.hasTag Tag.semicolon = true ∧ q = t'.span.stop := by
  obtain ⟨_, hheader, hbody⟩ := (hends.of_rule? (h.rule? (by decide))).pair
  obtain ⟨m, hfront, hcolon⟩ := (hheader.of_rule? h.rule?_header).split
  obtain ⟨t, ht, htag, rfl⟩ := hcolon.single.token_of_terminal
  obtain ⟨m', hselection, hsemicolon⟩ := (hbody.of_rule? (h.rule? (by decide))).pair
  obtain ⟨t', ht', htag', rfl⟩ := hsemicolon.token_of_terminal
  exact ⟨m, t, m', t', hfront, ht, htag, hselection, ht', htag', rfl⟩

/-- The only semicolon of a production is its last token. -/
theorem tokens_of_production (h : Plain s)
    (hends : s.Ends (.nonterminal Production.production.id) p q) :
    ∃ ts m t, s.source.Chain p ts m ∧ (∀ u ∈ ts, u.hasTag Tag.semicolon = false) ∧
      s.source.token m = .ok t ∧ t.hasTag Tag.semicolon = true ∧ q = t.span.stop := by
  obtain ⟨m, t, m', t', hfront, ht, hcolon, hselection, ht', hsemicolon, rfl⟩ :=
    h.parts_of_production hends
  obtain ⟨ts, hts, hfronts⟩ := h.tokens_of_front hfront
  obtain ⟨us, hus, hothers⟩ := h.tokens_of_selection hselection
  have hchain := hts.append (.cons ht hus)
  refine ⟨ts ++ t :: us, m', t', hchain, fun u hu => ?_, ht', hsemicolon, rfl⟩
  obtain ⟨_, hread⟩ := hchain.read u hu
  rw [List.mem_append, List.mem_cons] at hu
  obtain hu | rfl | hu := hu
  · obtain ⟨tag, hfront, htag⟩ := hfronts u hu
    refine h.not_semicolon hread htag ?_
    rintro rfl
    exact absurd hfront (by decide)
  · exact h.not_semicolon hread hcolon (by decide)
  · obtain ⟨tag, hother, htag⟩ := hothers u hu
    exact h.not_semicolon hread htag (by simpa using hother)

/-- From one position there is at most one production. -/
theorem production_unique (h : Plain s)
    (hends : s.Ends (.nonterminal Production.production.id) p q)
    (hends' : s.Ends (.nonterminal Production.production.id) p q') : q = q' := by
  obtain ⟨ts, m, t, hchain, hothers, ht, htag, rfl⟩ := h.tokens_of_production hends
  obtain ⟨ts', m', t', hchain', hothers', ht', htag', rfl⟩ := h.tokens_of_production hends'
  obtain rfl := hchain.first_eq ht (by simp [htag]) hothers hchain' ht' (by simp [htag']) hothers'
  obtain rfl := Except.ok.inj (ht.symm.trans ht')
  rfl

/-- Where a production has come as far as to its colon, or not yet, there is no greater-than
sign. -/
theorem not_greaterThan_of_front (h : Plain s)
    (hends : s.Ends (.nonterminal Production.production.id) p q)
    (hfront : s.Ends (.sequence headerFront) p m) (ht : s.source.token m = .ok t) :
    t.hasTag Tag.greaterThan = false := by
  obtain ⟨m', t', _, _, hfront', ht', hcolon, -⟩ := h.parts_of_production hends
  obtain ⟨ts, hchain, hfronts⟩ := h.tokens_of_front hfront
  obtain ⟨ts', hchain', hfronts'⟩ := h.tokens_of_front hfront'
  have hnot : ¬∃ tag, frontTag tag = true ∧ t'.hasTag tag = true := by
    rintro ⟨tag, hfront, htag⟩
    exact absurd hfront (by simp [(h.not_front_of_colon ht' htag hcolon).1])
  obtain ⟨us, rfl, hus⟩ := hchain'.front ht' hnot hchain hfronts
  refine Bool.eq_false_iff.mpr fun hgreater => ?_
  cases hus with
  | nil =>
      obtain rfl := Except.ok.inj (ht.symm.trans ht')
      exact (h.not_front_of_colon ht hgreater hcolon).2 rfl
  | cons hu _ =>
      obtain rfl := Except.ok.inj (ht.symm.trans hu)
      obtain ⟨tag, hfront, htag⟩ := hfronts' t (by simp)
      exact absurd hfront (by simp [h.not_front_of_greaterThan ht htag hgreater])

/-- Between two productions, in front of the first or behind the last one. -/
def Boundary (s : Session) (p : Position) : Prop :=
  s.Ends (.repetition (.nonterminal Production.production.id)) .start p

/-- Where all of a text is a list of productions, there is one behind every boundary but the last,
where no token is left. -/
theorem production_of_boundary (h : Plain s) {trailing : Bool}
    (hends : s.Ends (.nonterminal Production.grammar.id) .start q)
    (huses : s.usesUp trailing q = true) (hp : Boundary s p) :
    (∃ m, s.Ends (.nonterminal Production.production.id) p m) ∨ ∀ t, s.source.token p ≠ .ok t := by
  obtain ⟨m, hfirst, hrest⟩ := (hends.of_rule? (h.rule? (by decide))).pair
  have hlast : ReflTransGen (s.Ends (.nonterminal Production.production.id)) .start q :=
    .head hfirst (Session.ends_repetition_iff.mp hrest)
  have hnone (t : Token) : s.source.token q ≠ .ok t := by
    obtain ⟨e, he, -⟩ := Source.token_of_atEnd (Session.atEnd_of_usesUp huses)
    simp [he]
  have hunique : Relator.RightUnique (s.Ends (.nonterminal Production.production.id)) :=
    fun _ _ _ => h.production_unique
  obtain hahead | hbehind :=
    ReflTransGen.total_of_right_unique hunique (Session.ends_repetition_iff.mp hp) hlast
  · cases hahead using ReflTransGen.head_induction_on with
    | refl => exact .inr hnone
    | head hnext _ => exact .inl ⟨_, hnext⟩
  · cases hbehind using ReflTransGen.head_induction_on with
    | refl => exact .inr hnone
    | head hnext _ =>
        obtain ⟨_, _, _, _, hfront, -⟩ := h.parts_of_production hnext
        obtain ⟨t, ht⟩ := token_of_front hfront
        exact absurd ht (hnone t)

end Plain
end Aether
end Multipath
