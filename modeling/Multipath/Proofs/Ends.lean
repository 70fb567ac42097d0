import Multipath.Derivation.Run
import Multipath.Proofs.Places

/-!
The derivation relation on positions. `Session.Ends` is the meaning of a rule fragment: where its
matches from a position can end, without path sets, memo table or depth. `Grammar.Leads` is the
same relation open in what is read at a position and in what a reference to a rule spans, as the
evaluator is open in its resolver; `ends_iff_leads` ties the knot.
-/

namespace Multipath

theorem Position.le_refl (p : Position) : p ≤ p := by
  simp only [le_def, lt_def]
  omega

theorem Position.le_of_lt {p q : Position} (h : p < q) : p ≤ q := by
  simp only [le_def, lt_def] at h ⊢
  omega

/-- At the same position or behind it by at least one character. -/
def Position.Upto (p q : Position) : Prop := p = q ∨ p.index < q.index

namespace Position.Upto

theorem refl (p : Position) : p.Upto p := .inl rfl

theorem index_le {p q : Position} (h : p.Upto q) : p.index ≤ q.index := by
  obtain rfl | h := h
  · exact Nat.le_refl _
  · exact Nat.le_of_lt h

theorem trans {p q r : Position} (h : p.Upto q) (h' : q.Upto r) : p.Upto r := by
  obtain rfl | h := h
  · exact h'
  · exact .inr (Nat.lt_of_lt_of_le h h'.index_le)

theorem lt_of_ne {p q : Position} (h : p.Upto q) (hne : p ≠ q) : p.index < q.index :=
  h.resolve_left hne

theorem le {p q : Position} (h : p.Upto q) : p ≤ q := by
  obtain rfl | h := h
  · exact Position.le_refl p
  · exact Position.le_of_lt (.inl h)

theorem eq_of_le {p q : Position} (h : p.Upto q) (hle : q ≤ p) : q = p := by
  obtain rfl | h := h
  · rfl
  · exact absurd (.inl h) hle

end Position.Upto

section Leads

/-- Where a rule leads from a position, `reads` giving the token that is read at a position and
`refers` what the references to a rule span. -/
inductive Grammar.Leads (g : Grammar) (reads : Position → Token → Prop)
    (refers : RuleId → Position → Position → Prop) : Rule → Position → Position → Prop
  | terminal {tag p t} : reads p t → t.hasTag tag = true →
      Leads g reads refers (.terminal tag) p t.span.stop
  | nonterminal {rule p q} : refers rule p q → Leads g reads refers (.nonterminal rule) p q
  | nil {p} : Leads g reads refers (.sequence []) p p
  | cons {item items p m q} : Leads g reads refers item p m →
      Leads g reads refers (.sequence items) m q →
      Leads g reads refers (.sequence (item :: items)) p q
  | skip {body p} : Leads g reads refers (.optional body) p p
  | take {body p q} : Leads g reads refers body p q → Leads g reads refers (.optional body) p q
  | stop {body p} : Leads g reads refers (.repetition body) p p
  | again {body p m q} : Leads g reads refers body p m →
      Leads g reads refers (.repetition body) m q → Leads g reads refers (.repetition body) p q
  | choice {choice choices p q} : choice ∈ choices → Leads g reads refers choice p q →
      Leads g reads refers (.alternation choices) p q
  | enabled {feature body p q} : g.isEnabled feature = true → Leads g reads refers body p q →
      Leads g reads refers (.switch feature body) p q
  | disabled {feature body p} : g.isEnabled feature = false →
      Leads g reads refers (.switch feature body) p p

variable {g : Grammar} {reads reads' : Position → Token → Prop}
  {refers refers' : RuleId → Position → Position → Prop}

/-- What is read and referred to may change along positions with a property that is passed on. -/
theorem Grammar.Leads.along {rule : Rule} {p q : Position} (h : g.Leads reads refers rule p q)
    (carried : Position → Prop) (hp : carried p)
    (hreads : ∀ p t, carried p → reads p t → reads' p t ∧ carried t.span.stop)
    (hrefers : ∀ rule p q, carried p → refers rule p q → refers' rule p q ∧ carried q) :
    g.Leads reads' refers' rule p q ∧ carried q := by
  induction h with
  | terminal ht htag => exact ⟨.terminal (hreads _ _ hp ht).1 htag, (hreads _ _ hp ht).2⟩
  | nonterminal hr => exact ⟨.nonterminal (hrefers _ _ _ hp hr).1, (hrefers _ _ _ hp hr).2⟩
  | nil => exact ⟨.nil, hp⟩
  | cons _ _ ih ihs =>
      obtain ⟨hitem, hm⟩ := ih hp
      obtain ⟨hitems, hq⟩ := ihs hm
      exact ⟨.cons hitem hitems, hq⟩
  | skip => exact ⟨.skip, hp⟩
  | take _ ih => exact ⟨.take (ih hp).1, (ih hp).2⟩
  | stop => exact ⟨.stop, hp⟩
  | again _ _ ih ihs =>
      obtain ⟨hbody, hm⟩ := ih hp
      obtain ⟨hrest, hq⟩ := ihs hm
      exact ⟨.again hbody hrest, hq⟩
  | choice hc _ ih => exact ⟨.choice hc (ih hp).1, (ih hp).2⟩
  | enabled hf _ ih => exact ⟨.enabled hf (ih hp).1, (ih hp).2⟩
  | disabled hf => exact ⟨.disabled hf, hp⟩

theorem Grammar.Leads.mono {rule : Rule} {p q : Position} (h : g.Leads reads refers rule p q)
    (hreads : ∀ p t, reads p t → reads' p t)
    (hrefers : ∀ rule p q, refers rule p q → refers' rule p q) :
    g.Leads reads' refers' rule p q :=
  (h.along (fun _ => True) trivial (fun p t _ ht => ⟨hreads p t ht, trivial⟩)
    fun rule p q _ hr => ⟨hrefers rule p q hr, trivial⟩).1

/-- A property of positions that tokens and references pass on is passed on by every rule. -/
theorem Grammar.Leads.carries {rule : Rule} {p q : Position}
    (h : g.Leads reads refers rule p q) (carried : Position → Prop) (hp : carried p)
    (hreads : ∀ p t, reads p t → carried p → carried t.span.stop)
    (hrefers : ∀ rule p q, refers rule p q → carried p → carried q) : carried q :=
  (h.along carried hp (fun p t hp ht => ⟨ht, hreads p t ht hp⟩)
    fun rule p q hp hr => ⟨hr, hrefers rule p q hr hp⟩).2

theorem Grammar.Leads.upto {rule : Rule} {p q : Position} (h : g.Leads reads refers rule p q)
    (hreads : ∀ p t, reads p t → p.Upto t.span.stop)
    (hrefers : ∀ rule p q, refers rule p q → p.Upto q) : p.Upto q :=
  h.carries p.Upto (.refl p) (fun _ _ ht hp => hp.trans (hreads _ _ ht))
    (fun _ _ _ hr hp => hp.trans (hrefers _ _ _ hr))

/-- A repetition that gets anywhere has a first iteration that does. -/
theorem Grammar.Leads.iteration {body : Rule} {p q : Position}
    (h : g.Leads reads refers (.repetition body) p q) (hne : p ≠ q) :
    ∃ m, p ≠ m ∧ g.Leads reads refers body p m ∧ g.Leads reads refers (.repetition body) m q := by
  generalize hrule : Rule.repetition body = rule at h
  induction h with
  | stop => exact absurd rfl hne
  | @again _ p m q hbody hrest _ ih =>
      cases hrule
      by_cases hpm : p = m
      · subst hpm
        exact ih hne rfl
      · exact ⟨m, hpm, hbody, hrest⟩
  | _ => cases hrule

end Leads

/-- Where the matches of a rule fragment from a position can end. -/
inductive Session.Ends (s : Session) : Rule → Position → Position → Prop
  | terminal {tag p t} : s.source.token p = .ok t → t.hasTag tag = true →
      Ends s (.terminal tag) p t.span.stop
  | nonterminal {rule definition p q} : s.grammar.rule? rule = some definition →
      Ends s definition.body p q → Ends s (.nonterminal rule) p q
  | nil {p} : Ends s (.sequence []) p p
  | cons {item items p m q} : Ends s item p m → Ends s (.sequence items) m q →
      Ends s (.sequence (item :: items)) p q
  | skip {body p} : Ends s (.optional body) p p
  | take {body p q} : Ends s body p q → Ends s (.optional body) p q
  | stop {body p} : Ends s (.repetition body) p p
  | again {body p m q} : Ends s body p m → Ends s (.repetition body) m q →
      Ends s (.repetition body) p q
  | choice {choice choices p q} : choice ∈ choices → Ends s choice p q →
      Ends s (.alternation choices) p q
  | enabled {feature body p q} : s.grammar.isEnabled feature = true → Ends s body p q →
      Ends s (.switch feature body) p q
  | disabled {feature body p} : s.grammar.isEnabled feature = false →
      Ends s (.switch feature body) p p

namespace Session

variable {s : Session} {rule : Rule} {p q : Position}

theorem ends_of_leads {reads : Position → Token → Prop}
    {refers : RuleId → Position → Position → Prop} (h : s.grammar.Leads reads refers rule p q)
    (hreads : ∀ p t, reads p t → s.source.token p = .ok t)
    (hrefers : ∀ rule p q, refers rule p q → s.Ends (.nonterminal rule) p q) :
    s.Ends rule p q := by
  induction h with
  | terminal ht htag => exact .terminal (hreads _ _ ht) htag
  | nonterminal hr => exact hrefers _ _ _ hr
  | nil => exact .nil
  | cons _ _ ih ihs => exact .cons ih ihs
  | skip => exact .skip
  | take _ ih => exact .take ih
  | stop => exact .stop
  | again _ _ ih ihs => exact .again ih ihs
  | choice hc _ ih => exact .choice hc ih
  | enabled hf _ ih => exact .enabled hf ih
  | disabled hf => exact .disabled hf

theorem leads_of_ends (h : s.Ends rule p q) :
    s.grammar.Leads (fun p t => s.source.token p = .ok t)
      (fun rule => s.Ends (.nonterminal rule)) rule p q := by
  induction h with
  | terminal ht htag => exact .terminal ht htag
  | nonterminal hd h _ => exact .nonterminal (.nonterminal hd h)
  | nil => exact .nil
  | cons _ _ ih ihs => exact .cons ih ihs
  | skip => exact .skip
  | take _ ih => exact .take ih
  | stop => exact .stop
  | again _ _ ih ihs => exact .again ih ihs
  | choice hc _ ih => exact .choice hc ih
  | enabled hf _ ih => exact .enabled hf ih
  | disabled hf => exact .disabled hf

theorem ends_iff_leads : s.Ends rule p q ↔
    s.grammar.Leads (fun p t => s.source.token p = .ok t)
      (fun rule => s.Ends (.nonterminal rule)) rule p q :=
  ⟨leads_of_ends, fun h => ends_of_leads h (fun _ _ ht => ht) (fun _ _ _ hr => hr)⟩

/-- A property of positions that tokens pass on is passed on by every rule. -/
theorem Ends.carries (h : s.Ends rule p q) (carried : Position → Prop) (hp : carried p)
    (htoken : ∀ p t, s.source.token p = .ok t → carried p → carried t.span.stop) : carried q := by
  induction h with
  | terminal ht _ => exact htoken _ _ ht hp
  | nil | skip | stop | disabled _ => exact hp
  | cons _ _ ih ihs | again _ _ ih ihs => exact ihs (ih hp)
  | nonterminal _ _ ih | take _ ih | choice _ _ ih | enabled _ _ ih => exact ih hp

theorem Ends.isPlace (h : s.Ends rule p q) (hp : s.source.IsPlace p) : s.source.IsPlace q :=
  h.carries s.source.IsPlace hp fun _ _ ht hp => hp.of_token ht

end Session
end Multipath
