import Multipath.Proofs.Agreement
import Multipath.Proofs.Dependence

/-!
What is remembered does not depend on the context in which it was found out, as long as no
reference goes round in a circle: a finding that a derivation left behind says what a derivation of
its own would, and the order of alternatives makes no difference (`Session.derive_in_context`).
Both fail where rules refer to themselves at one position, since the inner reference is refused
there, and near the bound on nesting, since what is remembered does not count as nested.
-/

namespace Multipath

open Relation (ReflTransGen)

/-- The alternatives of one alternation somewhere in a rule are put in another order. -/
inductive Rule.Swaps : Rule → Rule → Prop
  | here {choices choices'} : choices.Perm choices' →
      Swaps (.alternation choices) (.alternation choices')
  | item {before after rule rule'} : Swaps rule rule' →
      Swaps (.sequence (before ++ rule :: after)) (.sequence (before ++ rule' :: after))
  | choice {before after rule rule'} : Swaps rule rule' →
      Swaps (.alternation (before ++ rule :: after)) (.alternation (before ++ rule' :: after))
  | optional {body body'} : Swaps body body' → Swaps (.optional body) (.optional body')
  | repetition {body body'} : Swaps body body' → Swaps (.repetition body) (.repetition body')
  | switch {feature body body'} : Swaps body body' →
      Swaps (.switch feature body) (.switch feature body')

theorem Rule.Swaps.symm {rule rule' : Rule} (h : rule.Swaps rule') : rule'.Swaps rule := by
  induction h with
  | here hperm => exact .here hperm.symm
  | item _ ih => exact .item ih
  | choice _ ih => exact .choice ih
  | optional _ ih => exact .optional ih
  | repetition _ ih => exact .repetition ih
  | switch _ ih => exact .switch ih

/-- Alternatives are put in another order any number of times. -/
def Rule.Rearranged : Rule → Rule → Prop := ReflTransGen Rule.Swaps

theorem Rule.Rearranged.symm {rule rule' : Rule} (h : rule.Rearranged rule') :
    rule'.Rearranged rule := by
  induction h with
  | refl => exact .refl
  | tail _ hswap ih => exact ReflTransGen.head hswap.symm ih

section Swaps
variable {s : Session} {rule rule' : Rule} {p q : Position} {x : Question}

theorem Session.Ends.item (hends : ∀ p q, s.Ends rule p q → s.Ends rule' p q)
    (before after : List Rule) (h : s.Ends (.sequence (before ++ rule :: after)) p q) :
    s.Ends (.sequence (before ++ rule' :: after)) p q := by
  induction before generalizing p with
  | nil =>
      cases h with
      | cons hitem hitems => exact .cons (hends _ _ hitem) hitems
  | cons item before ih =>
      cases h with
      | cons hitem hitems => exact .cons hitem (ih hitems)

theorem Session.Ends.iterated {body body' : Rule}
    (hends : ∀ p q, s.Ends body p q → s.Ends body' p q) (h : s.Ends (.repetition body) p q) :
    s.Ends (.repetition body') p q := by
  generalize hrule : Rule.repetition body = rule at h
  induction h with
  | stop =>
      cases hrule
      exact .stop
  | again hbody _ _ ih =>
      cases hrule
      exact .again (hends _ _ hbody) (ih rfl)
  | _ => cases hrule

theorem List.mem_middle_of_mem {α : Type} {before after : List α} {a b c : α}
    (h : c ∈ before ++ a :: after) : c = a ∨ c ∈ before ++ b :: after := by
  simp only [List.mem_append, List.mem_cons] at h ⊢
  obtain h | h | h := h
  · exact .inr (.inl h)
  · exact .inl h
  · exact .inr (.inr (.inr h))

/-- The order of alternatives has no bearing on where a rule ends. -/
theorem Rule.Swaps.ends (h : rule.Swaps rule') (hends : s.Ends rule p q) : s.Ends rule' p q := by
  induction h generalizing p q with
  | here hperm =>
      cases hends with
      | choice hmem hchoice => exact .choice (hperm.mem_iff.mp hmem) hchoice
  | item _ ih => exact Session.Ends.item (fun p q => ih) _ _ hends
  | @choice before after rule rule' _ ih =>
      cases hends with
      | choice hmem hchoice =>
          obtain rfl | hmem := List.mem_middle_of_mem (b := rule') hmem
          · exact .choice (by simp) (ih hchoice)
          · exact .choice hmem hchoice
  | optional _ ih =>
      cases hends with
      | skip => exact .skip
      | take hbody => exact .take (ih hbody)
  | repetition _ ih => exact Session.Ends.iterated (fun p q => ih) hends
  | switch _ ih =>
      cases hends with
      | enabled hf hbody => exact .enabled hf (ih hbody)
      | disabled hf => exact .disabled hf

theorem Session.Asks.item (hends : ∀ p q, s.Ends rule p q → s.Ends rule' p q)
    (hasks : ∀ p, s.Asks rule p x → s.Asks rule' p x) (before after : List Rule)
    (h : s.Asks (.sequence (before ++ rule :: after)) p x) :
    s.Asks (.sequence (before ++ rule' :: after)) p x := by
  induction before generalizing p with
  | nil =>
      cases h with
      | head hitem => exact .head (hasks _ hitem)
      | rest hitem hitems =>
          exact .rest (ends_iff_leads.mp (hends _ _ (ends_iff_leads.mpr hitem))) hitems
  | cons item before ih =>
      cases h with
      | head hitem => exact .head hitem
      | rest hitem hitems => exact .rest hitem (ih hitems)

/-- Nor has it on what a rule asks. -/
theorem Rule.Swaps.asks (h : rule.Swaps rule') (hasks : s.Asks rule p x) : s.Asks rule' p x := by
  induction h generalizing p with
  | here hperm =>
      cases hasks with
      | choice hmem hchoice => exact .choice (hperm.mem_iff.mp hmem) hchoice
  | item hswap ih => exact Session.Asks.item (fun p q => hswap.ends) (fun p => ih) _ _ hasks
  | @choice before after rule rule' _ ih =>
      cases hasks with
      | choice hmem hchoice =>
          obtain rfl | hmem := List.mem_middle_of_mem (b := rule') hmem
          · exact .choice (by simp) (ih hchoice)
          · exact .choice hmem hchoice
  | optional _ ih =>
      cases hasks with
      | optional hbody => exact .optional (ih hbody)
  | repetition hswap ih =>
      cases hasks with
      | iteration hleads hbody =>
          refine .iteration (Session.ends_iff_leads.mp ?_) (ih hbody)
          exact Session.Ends.iterated (fun p q => hswap.ends) (Session.ends_iff_leads.mpr hleads)
  | switch _ ih =>
      cases hasks with
      | enabled hf hbody => exact .enabled hf (ih hbody)

theorem Rule.Rearranged.ends (h : rule.Rearranged rule') (hends : s.Ends rule p q) :
    s.Ends rule' p q := by
  induction h with
  | refl => exact hends
  | tail _ hswap ih => exact hswap.ends ih

theorem Rule.Rearranged.asks (h : rule.Rearranged rule') (hasks : s.Asks rule p x) :
    s.Asks rule' p x := by
  induction h with
  | refl => exact hasks
  | tail _ hswap ih => exact hswap.asks ih

end Swaps

/-- The same text read by the same grammar, but for the order of alternatives in its rules. -/
structure Session.Rearranges (s s' : Session) : Prop where
  source : s'.source = s.source
  features : s'.grammar.features = s.grammar.features
  rules : ∀ rule, Option.Rel (fun definition definition' : Grammar.Definition =>
    definition.body.Rearranged definition'.body) (s.grammar.rule? rule) (s'.grammar.rule? rule)

namespace Session

variable {s s' : Session} {rule : Rule} {p q : Position} {x : Question}

namespace Rearranges

theorem symm (h : s.Rearranges s') : s'.Rearranges s where
  source := h.source.symm
  features := h.features.symm
  rules rule := by
    have hrule := h.rules rule
    revert hrule
    generalize s.grammar.rule? rule = found
    generalize s'.grammar.rule? rule = found'
    intro hrule
    cases hrule with
    | none => exact .none
    | some hbody => exact .some hbody.symm

theorem rule? (h : s.Rearranges s') {id : RuleId} {definition : Grammar.Definition}
    (hdef : s.grammar.rule? id = some definition) : ∃ definition',
      s'.grammar.rule? id = some definition' ∧ definition.body.Rearranged definition'.body := by
  have hrule := h.rules id
  rw [hdef] at hrule
  generalize hdef' : s'.grammar.rule? id = found' at hrule
  cases hrule with
  | some hbody => exact ⟨_, rfl, hbody⟩

theorem isEnabled (h : s.Rearranges s') (feature : String) :
    s'.grammar.isEnabled feature = s.grammar.isEnabled feature := by
  simp only [Grammar.isEnabled, h.features]

theorem ends (h : s.Rearranges s') (hends : s.Ends rule p q) : s'.Ends rule p q := by
  induction hends with
  | terminal ht htag => exact .terminal (h.source ▸ ht) htag
  | nonterminal hdef _ ih =>
      obtain ⟨definition', hdef', hbody⟩ := h.rule? hdef
      exact .nonterminal hdef' (hbody.ends ih)
  | nil => exact .nil
  | cons _ _ ih ihs => exact .cons ih ihs
  | skip => exact .skip
  | take _ ih => exact .take ih
  | stop => exact .stop
  | again _ _ ih ihs => exact .again ih ihs
  | choice hc _ ih => exact .choice hc ih
  | enabled hf _ ih => exact .enabled ((h.isEnabled _).trans hf) ih
  | disabled hf => exact .disabled ((h.isEnabled _).trans hf)

theorem asks (h : s.Rearranges s') (hasks : s.Asks rule p x) : s'.Asks rule p x := by
  have hleads {rule : Rule} {p q : Position}
      (hl : s.grammar.Leads (fun p t => s.source.token p = .ok t)
        (fun rule => s.Ends (.nonterminal rule)) rule p q) :
      s'.grammar.Leads (fun p t => s'.source.token p = .ok t)
        (fun rule => s'.Ends (.nonterminal rule)) rule p q :=
    ends_iff_leads.mp (h.ends (ends_iff_leads.mpr hl))
  induction hasks with
  | terminal => exact .terminal
  | nonterminal => exact .nonterminal
  | head _ ih => exact .head ih
  | rest hitem _ ih => exact .rest (hleads hitem) ih
  | optional _ ih => exact .optional ih
  | iteration hrep _ ih => exact .iteration (hleads hrep) ih
  | choice hc _ ih => exact .choice hc ih
  | enabled hf _ ih => exact .enabled ((h.isEnabled _).trans hf) ih

theorem refers (h : s.Rearranges s') {x y : Reference} (hxy : s.Refers x y) : s'.Refers x y := by
  obtain ⟨definition, hdef, hasks⟩ := hxy
  obtain ⟨definition', hdef', hbody⟩ := h.rule? hdef
  exact ⟨definition', hdef', hbody.asks (h.asks hasks)⟩

theorem grounded (h : s.Rearranges s') {x : Reference} (hx : s.Grounded x) : s'.Grounded x :=
  Subrelation.accessible (fun hyx => h.symm.refers hyx) hx

end Rearranges

/-- The result lists the ends, and some; it is a failure that may be borne if there are none. -/
def Exact (result : Except Failure PathSet) (ends : Position → Prop) : Prop :=
  match result with
  | .ok out => out ≠ ∅ ∧ ∀ q, q ∈ out ↔ ends q
  | .error f => f.isAbsorbable = true ∧ ∀ q, ¬ends q

/-- Results that are exact for the same ends are alike. -/
theorem Exact.alike {result result' : Except Failure PathSet} {ends ends' : Position → Prop}
    (h : Exact result ends) (h' : Exact result' ends') (heq : ∀ q, ends q ↔ ends' q) :
    Alike (fun f g => f.isAbsorbable = g.isAbsorbable) Eq result result' := by
  have hnone {out : PathSet} (hne : out ≠ ∅) (hempty : ∀ q, q ∉ out) : False := by
    obtain ⟨q, hq⟩ := SortedSet.ne_empty_iff.mp hne
    exact hempty q hq
  cases result with
  | ok out =>
      cases result' with
      | ok out' =>
          refine .ok (Std.ExtTreeSet.ext_mem fun q => ?_)
          rw [h.2 q, h'.2 q, heq q]
      | error g => exact (hnone h.1 fun q hq => h'.2 q ((heq q).mp ((h.2 q).mp hq))).elim
  | error f =>
      cases result' with
      | ok out' => exact (hnone h'.1 fun q hq => h.2 q ((heq q).mpr ((h'.2 q).mp hq))).elim
      | error g => exact .error (h.1.trans h'.1.symm)

end Session

/-- The paths that a result of the run stands for. -/
def Run.outcome (run : Run) (result : Except Failure NodeId) : Except Failure PathSet :=
  result.map run.arena.output

section Exactness
variable {s : Session} {run : Run} {rule : RuleId} {p : Position}

/-- Findings about what is grounded are exact. -/
theorem Run.Regular.exact (h : run.Regular s fun _ => False) {finding : Finding}
    (hm : run.memo.find? p rule = some finding) (hx : s.Grounded ⟨p, rule⟩) :
    Session.Exact (run.outcome (finding.answer rule p)) (s.Ends (.nonterminal rule) p) := by
  have hthorough := h.thorough p rule finding hm hx
  cases finding with
  | inProgress => exact (h.inProgress p rule hm).elim
  | failed f => exact ⟨h.uncut p rule f hm, hthorough (h.uncut p rule f hm)⟩
  | succeeded id =>
      obtain ⟨out, hd, hne⟩ := h.valid.settled p rule id hm
      refine ⟨by rwa [Arena.output_of_derived hd], fun q => ⟨fun hq => ?_, hthorough q⟩⟩
      exact (h.valid.ends_of_settled _ (h.valid.asked p rule _ hm) (h.valid.known hm hq)).1

namespace Session

variable {result : Except Failure NodeId}

/-- What a first derivation comes to is grounded if no rule met itself, and if it is grounded it is
exact. -/
theorem derive_exact (hp : s.source.IsPlace p)
    (hrun : (s.derive rule p).run.run {} = (result, run)) (hu : Uncut result) :
    (run.stats.leftRecursionHits = 0 → s.Grounded ⟨p, rule⟩) ∧
      (s.Grounded ⟨p, rule⟩ → Exact (run.outcome result) (s.Ends (.nonterminal rule) p)) := by
  have h := derive_regular hp hrun hu
  have hrecalled := (ensures_derive.mpr (deriveWithin_recalled run _ rule p {})).of_run hrun
    (.refl run) hu
  obtain ⟨finding, hm, -, rfl⟩ | ⟨hnone, -, f, rfl⟩ := hrecalled
  · refine ⟨fun hhits => h.grounded hhits p rule finding hm ?_, h.exact hm⟩
    rintro rfl
    exact h.inProgress p rule hm
  · refine ⟨fun _ => .of_none hnone, fun _ => ⟨hu f rfl, fun q hq => ?_⟩⟩
    cases hq with
    | nonterminal hdef _ => cases hnone.symm.trans hdef

/-- What a derivation that was not cut off finds out about a rule at a position is what deriving
that by itself comes to, and rearranging alternatives does not change what it comes to itself:
unless the other derivation is cut off by the bound on nesting, or rules met themselves in both. -/
theorem derive_in_context {start : RuleId}
    (hrun : (s.derive start .start).run.run {} = (result, run)) (hu : Uncut result) :
    (∀ p rule finding, run.memo.find? p rule = some finding →
      ∀ result' run', (s.derive rule p).run.run {} = (result', run') → Uncut result' →
        run.stats.leftRecursionHits = 0 ∨ run'.stats.leftRecursionHits = 0 →
        finding ≠ .inProgress ∧ Alike (fun f g => f.isAbsorbable = g.isAbsorbable) Eq
          (run.outcome (finding.answer rule p)) (run'.outcome result')) ∧
    ∀ s', s.Rearranges s' →
      ∀ result' run', (s'.derive start .start).run.run {} = (result', run') → Uncut result' →
        run.stats.leftRecursionHits = 0 ∨ run'.stats.leftRecursionHits = 0 →
        Alike (fun f g => f.isAbsorbable = g.isAbsorbable) Eq
          (run.outcome result) (run'.outcome result') := by
  have hstart := s.source.isPlace_start
  have h := derive_regular hstart hrun hu
  refine ⟨fun p rule finding hm result' run' hrun' hu' hhits => ?_,
    fun s' hs result' run' hrun' hu' hhits => ?_⟩
  · have hsettled : finding ≠ .inProgress := by
      rintro rfl
      exact h.inProgress p rule hm
    have hexact := derive_exact (h.valid.asked p rule finding hm) hrun' hu'
    have hx : s.Grounded ⟨p, rule⟩ := by
      obtain hhits | hhits := hhits
      · exact h.grounded hhits p rule finding hm hsettled
      · exact hexact.1 hhits
    exact ⟨hsettled, (h.exact hm hx).alike (hexact.2 hx) fun _ => Iff.rfl⟩
  · have hexact := derive_exact hstart hrun hu
    have hexact' := derive_exact s'.source.isPlace_start hrun' hu'
    have hx : s.Grounded ⟨.start, start⟩ := by
      obtain hhits | hhits := hhits
      · exact hexact.1 hhits
      · exact hs.symm.grounded (hexact'.1 hhits)
    exact (hexact.2 hx).alike (hexact'.2 (hs.grounded hx))
      fun q => ⟨hs.ends, hs.symm.ends⟩

/-- A list, derived at the start, and what else that leaves behind. -/
theorem derive_in_context_lists : ∃ run,
    ((Samples.listSession "a,a").derive 0 .start).run.run {} = (.ok 2, run) ∧
      Uncut (.ok 2 : Except Failure NodeId) ∧
      (∀ p rule finding, run.memo.find? p rule = some finding →
        ∀ result' run', ((Samples.listSession "a,a").derive rule p).run.run {} = (result', run') →
          Uncut result' → run.stats.leftRecursionHits = 0 ∨ run'.stats.leftRecursionHits = 0 →
          finding ≠ .inProgress ∧ Alike (fun f g => f.isAbsorbable = g.isAbsorbable) Eq
            (run.outcome (finding.answer rule p)) (run'.outcome result')) ∧
      ∀ s', (Samples.listSession "a,a").Rearranges s' →
        ∀ result' run', (s'.derive 0 .start).run.run {} = (result', run') → Uncut result' →
          run.stats.leftRecursionHits = 0 ∨ run'.stats.leftRecursionHits = 0 →
          Alike (fun f g => f.isAbsorbable = g.isAbsorbable) Eq
            (run.outcome (.ok 2)) (run'.outcome result') := by
  have hok : (((Samples.listSession "a,a").derive 0 .start).run.run {}).1.toOption = some 2 := by
    decide +kernel
  generalize hrun : ((Samples.listSession "a,a").derive 0 .start).run.run {} = derived at hok
  obtain ⟨result, run⟩ := derived
  obtain rfl := ok_of_toOption hok
  exact ⟨run, rfl, uncut_ok 2, derive_in_context hrun (uncut_ok 2)⟩

end Session
end Exactness

namespace Samples

/-- The text `a,` read by a root of one's own over `Left: (Right | A); Right: (Left | Comma);`. -/
def circles (root : Rule) : Session := .ofText { lists with
  rules := [⟨"Root", root⟩, ⟨"Left", .alternation [.nonterminal 2, .terminal 0]⟩,
    ⟨"Right", .alternation [.nonterminal 1, .terminal 1]⟩] } ∅ "a," none 8

/-- The root `Root: (Left | Right Comma);`. -/
def leftFirst : Session :=
  circles (.alternation [.nonterminal 1, .sequence [.nonterminal 2, .terminal 1]])

/-- The root `Root: (Right Comma | Left);`. -/
def rightFirst : Session :=
  circles (.alternation [.sequence [.nonterminal 2, .terminal 1], .nonterminal 1])

/-- The text `a` read with nesting bounded by three, by a root of one's own over
`Low: Ground; Ground: A; High: Middle; Middle: Low;`. -/
def stairs (root : Rule) : Session := .ofText { lists with
  rules := [⟨"Root", root⟩, ⟨"Low", .nonterminal 2⟩, ⟨"Ground", .terminal 0⟩,
    ⟨"High", .nonterminal 4⟩, ⟨"Middle", .nonterminal 1⟩] } ∅ "a" none 3

/-- The root `Root: (Low | High);`. -/
def lowFirst : Session := stairs (.alternation [.nonterminal 1, .nonterminal 3])

/-- The root `Root: (High | Low);`. -/
def highFirst : Session := stairs (.alternation [.nonterminal 3, .nonterminal 1])

end Samples

namespace Session

/-- The paths that deriving a rule at the start comes to by itself. -/
def alone (s : Session) (rule : RuleId) : Except Failure (List Position) :=
  (((s.derive rule .start).run.run {}).2.outcome ((s.derive rule .start).run.run {}).1).map (·.toList)

/-- The paths that are known of a rule at the start once the root was derived there. -/
def remembered (s : Session) (rule : RuleId) : Option (Except Failure (List Position)) :=
  (((s.derive 0 .start).run.run {}).2.memo.find? .start rule).map fun finding =>
    (((s.derive 0 .start).run.run {}).2.outcome (finding.answer rule .start)).map (·.toList)

theorem leftFirst_rearranges : Samples.leftFirst.Rearranges Samples.rightFirst where
  source := rfl
  features := rfl
  rules
    | 0 => .some (.single (.here (.swap _ _ _)))
    | 1 | 2 => .some .refl
    | _ + 3 => .none

theorem lowFirst_rearranges : Samples.lowFirst.Rearranges Samples.highFirst where
  source := rfl
  features := rfl
  rules
    | 0 => .some (.single (.here (.swap _ _ _)))
    | 1 | 2 | 3 | 4 => .some .refl
    | _ + 5 => .none

/-- While `Left` is being derived `Right` fails, which matches by itself, and the order of the
root's alternatives decides which of the two comes first. Near the bound on nesting `High` matches
where `Low` is remembered, and otherwise it nests too deeply. -/
theorem context_matters :
    (((Samples.leftFirst.alone 0).toOption = some [⟨1, 1, 2⟩] ∧
        (Samples.leftFirst.remembered 2).map Except.toOption = some none ∧
        (Samples.leftFirst.alone 2).toOption = some [⟨1, 1, 2⟩]) ∧
      Samples.leftFirst.Rearranges Samples.rightFirst ∧
      (Samples.rightFirst.alone 0).toOption = some [⟨1, 1, 2⟩, ⟨2, 1, 3⟩]) ∧
    ((Samples.lowFirst.alone 0).toOption = some [⟨1, 1, 2⟩] ∧
        (Samples.lowFirst.remembered 3).map Except.toOption = some (some [⟨1, 1, 2⟩]) ∧
        failure? (Samples.lowFirst.alone 3) = some (.depthLimit 2 .start)) ∧
      Samples.lowFirst.Rearranges Samples.highFirst ∧
      failure? (Samples.highFirst.alone 0) = some (.depthLimit 1 .start) := by
  refine ⟨⟨⟨?_, ?_, ?_⟩, leftFirst_rearranges, ?_⟩, ⟨?_, ?_, ?_⟩, lowFirst_rearranges, ?_⟩
  all_goals decide +kernel

end Session
end Multipath
