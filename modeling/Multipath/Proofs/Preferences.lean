import Mathlib.Order.WellFounded
import Multipath.Proofs.Dependence
import Multipath.Proofs.Matches

/-!
The derivation that is preferred. Of the ways in which a rule matches between two positions,
`Grammar.Prefers` singles out one: each item of a sequence and each iteration of a repetition ends
at the furthest position from which the rest still leads to the end, an alternation takes its first
choice that leads there, and an optional part is taken where it can be. There is at most one such
derivation, and where references are grounded there is one for every end of a rule.
-/

namespace Multipath

theorem Position.le_antisymm {p q : Position} (h : p ≤ q) (h' : q ≤ p) : p = q := by
  cases p
  cases q
  simp only [le_def, lt_def, mk.injEq] at h h' ⊢
  omega

/-- The greatest position with a property. -/
def Position.Furthest (P : Position → Prop) (m : Position) : Prop := P m ∧ ∀ m', P m' → m' ≤ m

theorem Position.Furthest.unique {P : Position → Prop} {m m' : Position} (h : Furthest P m)
    (h' : Furthest P m') : m = m' := le_antisymm (h'.2 m h.1) (h.2 m' h'.1)

/-- Of the places of a text with a property there is a greatest one, if there is any. -/
theorem Source.exists_furthest (src : Source) {P : Position → Prop}
    (hplace : ∀ m, P m → src.IsPlace m) (h : ∃ m, P m) : ∃ m, Position.Furthest P m := by
  obtain ⟨m, hm, hmin⟩ := (measure fun m : Position => src.length - m.index).wf.has_min {m | P m} h
  refine ⟨m, hm, fun m' hm' hlt => ?_⟩
  have hindex : m'.index ≤ m.index := by
    have hfar : ¬src.length - m'.index < src.length - m.index := hmin m' hm'
    have := (hplace m' hm').index_le
    omega
  have hbefore : m.index ≤ m'.index := by
    simp only [Position.lt_def] at hlt
    omega
  -- places at one index are the same
  have hsame := (hplace m hm).eq_of_index (hplace m' hm') (Nat.le_antisymm hbefore hindex)
  rw [hsame] at hlt
  exact Position.le_refl m' hlt

section Prefers

/-- `ts` is the derivation of a rule between two positions that is preferred, `reads` giving the
token that is read at a position and `leads` where rules lead. -/
inductive Grammar.Prefers (g : Grammar) (reads : Position → Token → Prop)
    (leads : Rule → Position → Position → Prop) : Rule → Position → Position → List Tree → Prop
  | terminal {tag p t} : reads p t → t.hasTag tag = true →
      Prefers g reads leads (.terminal tag) p t.span.stop [.leaf (g.leaf t)]
  | nonterminal {rule definition p q ts} : g.rule? rule = some definition →
      Prefers g reads leads definition.body p q ts →
      Prefers g reads leads (.nonterminal rule) p q [.branch (g.name rule) ⟨p, q⟩ ts]
  | nil {p} : Prefers g reads leads (.sequence []) p p []
  | cons {item items p m q ts us} :
      Position.Furthest (fun m => leads item p m ∧ leads (.sequence items) m q) m →
      Prefers g reads leads item p m ts → Prefers g reads leads (.sequence items) m q us →
      Prefers g reads leads (.sequence (item :: items)) p q (ts ++ us)
  | skip {body p} : ¬leads body p p → Prefers g reads leads (.optional body) p p []
  | take {body p q ts} : leads body p q → Prefers g reads leads body p q ts →
      Prefers g reads leads (.optional body) p q ts
  | stop {body p} : Prefers g reads leads (.repetition body) p p []
  | again {body p m q ts us} : p ≠ q →
      Position.Furthest (fun m => p < m ∧ leads body p m ∧ leads (.repetition body) m q) m →
      Prefers g reads leads body p m ts → Prefers g reads leads (.repetition body) m q us →
      Prefers g reads leads (.repetition body) p q (ts ++ us)
  | first {choice choices p q ts} : leads choice p q → Prefers g reads leads choice p q ts →
      Prefers g reads leads (.alternation (choice :: choices)) p q ts
  | later {choice choices p q ts} : ¬leads choice p q →
      Prefers g reads leads (.alternation choices) p q ts →
      Prefers g reads leads (.alternation (choice :: choices)) p q ts
  | enabled {feature body p q ts} : g.isEnabled feature = true →
      Prefers g reads leads body p q ts → Prefers g reads leads (.switch feature body) p q ts
  | disabled {feature body p} : g.isEnabled feature = false →
      Prefers g reads leads (.switch feature body) p p []

variable {g : Grammar} {reads : Position → Token → Prop}
  {leads : Rule → Position → Position → Prop} {rule : Rule} {p q : Position} {ts us : List Tree}

/-- At every point only one choice is preferred. -/
theorem Grammar.Prefers.unique (hreads : ∀ p t t', reads p t → reads p t' → t = t')
    (h : g.Prefers reads leads rule p q ts) (h' : g.Prefers reads leads rule p q us) :
    ts = us := by
  induction h generalizing us with
  | @terminal tag p t ht _ =>
      generalize hstop : t.span.stop = stop at h'
      cases h' with
      | terminal ht' _ => rw [hreads _ _ _ ht ht']
  | nonterminal hdef _ ih =>
      cases h' with
      | nonterminal hdef' hbody =>
          obtain rfl := Option.some.inj (hdef.symm.trans hdef')
          rw [ih hbody]
  | nil =>
      cases h'
      rfl
  | cons hfar _ _ ih ihs =>
      cases h' with
      | cons hfar' hitem hitems =>
          obtain rfl := hfar.unique hfar'
          rw [ih hitem, ihs hitems]
  | skip hnot =>
      cases h' with
      | skip _ => rfl
      | take hl _ => exact absurd hl hnot
  | take hl _ ih =>
      cases h' with
      | skip hnot => exact absurd hl hnot
      | take _ hbody => exact ih hbody
  | stop =>
      cases h' with
      | stop => rfl
      | again hne _ _ _ => exact absurd rfl hne
  | again hne hfar _ _ ih ihs =>
      cases h' with
      | stop => exact absurd rfl hne
      | again _ hfar' hbody hrest =>
          obtain rfl := hfar.unique hfar'
          rw [ih hbody, ihs hrest]
  | first hl _ ih =>
      cases h' with
      | first _ hchoice => exact ih hchoice
      | later hnot _ => exact absurd hl hnot
  | later hnot _ ih =>
      cases h' with
      | first hl _ => exact absurd hl hnot
      | later _ hchoices => exact ih hchoices
  | enabled hon _ ih =>
      cases h' with
      | enabled _ hbody => exact ih hbody
      | disabled hoff => cases hon.symm.trans hoff
  | disabled hoff =>
      cases h' with
      | enabled hon _ => cases hoff.symm.trans hon
      | disabled _ => rfl

end Prefers

namespace Session

variable {s : Session} {rule body : Rule} {p q : Position} {ts us : List Tree}

/-- The derivation that is preferred, by the ends of rules. -/
abbrev Prefers (s : Session) : Rule → Position → Position → List Tree → Prop :=
  s.grammar.Prefers (fun p t => s.source.token p = .ok t) s.Ends

theorem Prefers.unique (h : s.Prefers rule p q ts) (h' : s.Prefers rule p q us) : ts = us :=
  Grammar.Prefers.unique
    (fun _ _ _ ht ht' => Except.ok.inj (ht.symm.trans ht')) h h'

/-- What is preferred is a derivation. -/
theorem Prefers.ends (h : s.Prefers rule p q ts) : s.Ends rule p q := by
  induction h with
  | terminal ht htag => exact .terminal ht htag
  | nonterminal hdef _ ih => exact .nonterminal hdef ih
  | nil => exact .nil
  | cons _ _ _ ih ihs => exact .cons ih ihs
  | skip _ => exact .skip
  | take _ _ ih => exact .take ih
  | stop => exact .stop
  | again _ _ _ _ ih ihs => exact .again ih ihs
  | first _ _ ih => exact .choice List.mem_cons_self ih
  | later _ _ ih =>
      cases ih with
      | choice hmem hl => exact .choice (List.mem_cons_of_mem _ hmem) hl
  | enabled hon _ ih => exact .enabled hon ih
  | disabled hoff => exact .disabled hoff

theorem Ends.upto (h : s.Ends rule p q) : p.Upto q :=
  h.carries p.Upto (.refl p) fun _ _ ht hp => hp.trans (.inr (Source.token_stop ht).1)

section Existence

/-- All that a fragment asks for from a place is among some questions. -/
def AsksOnly (s : Session) (asked : Question → Prop) (rule : Rule) (p : Position) : Prop :=
  s.source.IsPlace p ∧ ∀ x, s.Asks rule p x → asked x

/-- Every end of a fragment that is admitted has a derivation that is preferred. -/
def Decides (s : Session) (asked : Question → Prop) (rule : Rule) : Prop :=
  ∀ p q, s.AsksOnly asked rule p → s.Ends rule p q → ∃ ts, s.Prefers rule p q ts

variable {asked : Question → Prop} {item : Rule} {items choices : List Rule}

theorem Decides.cons (hitem : s.Decides asked item) (hitems : s.Decides asked (.sequence items)) :
    s.Decides asked (.sequence (item :: items)) := by
  intro p q hadmits hends
  have hsome : ∃ m, s.Ends item p m ∧ s.Ends (.sequence items) m q := by
    cases hends with
    | cons hitem hitems => exact ⟨_, hitem, hitems⟩
  obtain ⟨m, hfar⟩ := s.source.exists_furthest (fun m hm => hm.1.isPlace hadmits.1) hsome
  obtain ⟨ts, hts⟩ := hitem p m ⟨hadmits.1, fun x hx => hadmits.2 x (.head hx)⟩ hfar.1.1
  obtain ⟨us, hus⟩ := hitems m q ⟨hfar.1.1.isPlace hadmits.1, fun x hx =>
    hadmits.2 x (.rest (leads_of_ends hfar.1.1) hx)⟩ hfar.1.2
  exact ⟨ts ++ us, .cons hfar hts hus⟩

/-- By induction on the text that is left. -/
theorem Decides.repetition (hbody : s.Decides asked body) :
    s.Decides asked (.repetition body) := by
  intro p q hadmits hends
  generalize hleft : q.index - p.index = left
  induction left using Nat.strongRecOn generalizing p with
  | ind left ih =>
      by_cases heq : p = q
      · rw [heq]
        exact ⟨[], .stop⟩
      have hsome : ∃ m, p < m ∧ s.Ends body p m ∧ s.Ends (.repetition body) m q := by
        obtain ⟨m, hpm, hl, hrest⟩ := (leads_of_ends hends).iteration heq
        have hl := ends_iff_leads.mpr hl
        exact ⟨m, .inl (hl.upto.lt_of_ne hpm), hl, ends_iff_leads.mpr hrest⟩
      obtain ⟨m, hfar⟩ := s.source.exists_furthest (fun m hm => hm.2.1.isPlace hadmits.1) hsome
      obtain ⟨hlt, hl, hrest⟩ := hfar.1
      have hindex : p.index < m.index := hl.upto.lt_of_ne fun hpm =>
        Position.le_refl m (hpm ▸ hlt)
      have hstop := hrest.upto.index_le
      obtain ⟨ts, hts⟩ :=
        hbody p m ⟨hadmits.1, fun x hx => hadmits.2 x (.iteration .stop hx)⟩ hl
      have hadmits' : s.AsksOnly asked (.repetition body) m := ⟨hl.isPlace hadmits.1,
        fun x hx => hadmits.2 x (.again (.again (leads_of_ends hl) .stop) hx)⟩
      obtain ⟨us, hus⟩ := ih (q.index - m.index) (by omega) m hadmits' hrest rfl
      exact ⟨ts ++ us, .again heq hfar hts hus⟩

theorem Decides.optional (hbody : s.Decides asked body) : s.Decides asked (.optional body) := by
  intro p q hadmits hends
  have hadmits' : s.AsksOnly asked body p := ⟨hadmits.1, fun x hx => hadmits.2 x (.optional hx)⟩
  by_cases hl : s.Ends body p q
  · obtain ⟨ts, hts⟩ := hbody p q hadmits' hl
    exact ⟨ts, .take hl hts⟩
  · cases hends with
    | skip => exact ⟨[], .skip hl⟩
    | take hl' => exact absurd hl' hl

theorem Decides.alternation (hchoice : s.Decides asked item)
    (hchoices : s.Decides asked (.alternation choices)) :
    s.Decides asked (.alternation (item :: choices)) := by
  intro p q hadmits hends
  by_cases hl : s.Ends item p q
  · obtain ⟨ts, hts⟩ := hchoice p q
      ⟨hadmits.1, fun x hx => hadmits.2 x (.choice List.mem_cons_self hx)⟩ hl
    exact ⟨ts, .first hl hts⟩
  · have hrest : s.Ends (.alternation choices) p q := by
      cases hends with
      | choice hmem hl' =>
          obtain rfl | hmem := List.mem_cons.mp hmem
          · exact absurd hl' hl
          · exact .choice hmem hl'
    obtain ⟨ts, hts⟩ := hchoices p q ⟨hadmits.1, fun x hx => hadmits.2 x (by
      cases hx with
      | choice hmem hx => exact .choice (List.mem_cons_of_mem _ hmem) hx)⟩ hrest
    exact ⟨ts, .later hl hts⟩

theorem Decides.switch (feature : String) (hbody : s.Decides asked body) :
    s.Decides asked (.switch feature body) := by
  intro p q hadmits hends
  cases hends with
  | enabled hon hl =>
      obtain ⟨ts, hts⟩ := hbody p q ⟨hadmits.1, fun x hx => hadmits.2 x (.enabled hon hx)⟩ hl
      exact ⟨ts, .enabled hon hts⟩
  | disabled hoff => exact ⟨[], .disabled hoff⟩

mutual

/-- Every fragment is decided if its references are. -/
theorem decides (hrefers : ∀ r m q, asked (.reference r m) → s.source.IsPlace m →
      s.Ends (.nonterminal r) m q → ∃ ts, s.Prefers (.nonterminal r) m q ts) :
    ∀ rule, s.Decides asked rule
  | .terminal tag => by
      intro p q _ hends
      cases hends with
      | terminal ht htag => exact ⟨_, .terminal ht htag⟩
  | .nonterminal r => fun p q hadmits => hrefers r p q (hadmits.2 _ .nonterminal) hadmits.1
  | .sequence items => decidesItems hrefers items
  | .optional body => (decides hrefers body).optional
  | .repetition body => (decides hrefers body).repetition
  | .alternation choices => decidesChoices hrefers choices
  | .switch feature body => (decides hrefers body).switch feature

theorem decidesItems (hrefers : ∀ r m q, asked (.reference r m) → s.source.IsPlace m →
      s.Ends (.nonterminal r) m q → ∃ ts, s.Prefers (.nonterminal r) m q ts) :
    ∀ items, s.Decides asked (.sequence items)
  | [] => by
      intro p q _ hends
      cases hends with
      | nil => exact ⟨[], .nil⟩
  | item :: items => (decides hrefers item).cons (decidesItems hrefers items)

theorem decidesChoices (hrefers : ∀ r m q, asked (.reference r m) → s.source.IsPlace m →
      s.Ends (.nonterminal r) m q → ∃ ts, s.Prefers (.nonterminal r) m q ts) :
    ∀ choices, s.Decides asked (.alternation choices)
  | [] => by
      intro p q _ hends
      cases hends with
      | choice hmem _ => cases hmem
  | choice :: choices => (decides hrefers choice).alternation (decidesChoices hrefers choices)

end

/-- A rule that is grounded has a derivation that is preferred for each of its ends. -/
theorem Grounded.exists_prefers {x : Reference} (h : s.Grounded x)
    (hplace : s.source.IsPlace x.position) {q : Position}
    (hends : s.Ends (.nonterminal x.rule) x.position q) :
    ∃ ts, s.Prefers (.nonterminal x.rule) x.position q ts := by
  induction h generalizing q with
  | intro x _ ih =>
      cases hends with
      | nonterminal hdef hends =>
          have hrefers : ∀ r m q, s.Asks _ x.position (.reference r m) → s.source.IsPlace m →
              s.Ends (.nonterminal r) m q → ∃ ts, s.Prefers (.nonterminal r) m q ts :=
            fun r m q hasked hm hends => ih ⟨m, r⟩ ⟨_, hdef, hasked⟩ hm hends
          obtain ⟨ts, hts⟩ := decides hrefers _ x.position q ⟨hplace, fun _ hx => hx⟩ hends
          exact ⟨_, .nonterminal hdef hts⟩

end Existence
end Session

namespace Tree

mutual

/-- How deep the branches of a tree nest, itself included. -/
def nesting : Tree → Nat
  | .leaf _ => 0
  | .branch _ _ children => nestingAll children + 1

def nestingAll : List Tree → Nat
  | [] => 0
  | t :: ts => max (nesting t) (nestingAll ts)

end

theorem nestingAll_append (ts us : List Tree) :
    nestingAll (ts ++ us) = max (nestingAll ts) (nestingAll us) := by
  induction ts with
  | nil => simp [nestingAll]
  | cons t ts ih => simp [nestingAll, ih, Nat.max_assoc]

end Tree
end Multipath
