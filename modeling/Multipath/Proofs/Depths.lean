import Multipath.Proofs.Correspondence
import Multipath.Proofs.Derivations

/-!
How deep rules nest that are found. Let references lead up by one rank at most. A rule then stands
at least as many levels below the first one as its rank says, so a rule that was found has a rank
below the bound on nesting.
-/

namespace Multipath

open Search (outcome outputOf)

namespace Grammar

variable {g : Grammar} {reads : Position → Token → Prop}
  {refers : RuleId → Position → Position → Prop} {rule : Rule} {p m : Position} {r : RuleId}

/-- References are asked for where they stand in a rule. -/
theorem Asks.mem_parts (h : g.Asks reads refers rule p (.reference r m)) :
    .nonterminal r ∈ rule.parts := by
  generalize hx : Question.reference r m = x at h
  induction h with
  | terminal => cases hx
  | nonterminal =>
      cases hx
      simp [Rule.parts]
  | head _ ih => simp [Rule.parts, Rule.partsAll, ih hx]
  | rest _ _ ih =>
      have h := ih hx
      simp only [Rule.parts, List.mem_cons, reduceCtorEq, false_or] at h
      simp [Rule.parts, Rule.partsAll, h]
  | optional _ ih | iteration _ _ ih | enabled _ _ ih => simp [Rule.parts, ih hx]
  | choice hc _ ih => simpa [Rule.parts] using Rule.mem_partsAll hc (ih hx)

/-- References lead up by one rank at most. -/
def Climbs (g : Grammar) (rank : RuleId → Nat) : Prop :=
  ∀ r definition, g.rule? r = some definition →
    ∀ r', .nonterminal r' ∈ definition.body.parts → rank r' ≤ rank r + 1

end Grammar

/-- Rules that were found have ranks below the bound. -/
def Run.Below (rank : RuleId → Nat) (bound : Nat) (run : Run) : Prop :=
  ∀ p r id, run.memo.find? p r = some (.succeeded id) → rank r < bound

namespace Run

variable {rank : RuleId → Nat} {bound : Nat} {run run' : Run} {r : RuleId} {p : Position}

theorem below_empty : Run.Below rank bound {} := by
  intro p r id h
  simp [Memo.find?] at h

theorem Below.record (h : run.Below rank bound) {finding : Finding}
    (hrec : run.Records run' p r finding) (hr : finding.isSuccess = true → rank r < bound) :
    run'.Below rank bound := by
  intro q r' id hm
  rw [hrec.find?] at hm
  split at hm
  · next heq =>
      cases hm
      rw [heq.2]
      exact hr rfl
  · exact h q r' id hm

end Run

namespace Session

variable {s : Session} {rank : RuleId → Nat} {bound n : Nat} {run : Run}

/-- What references keep that are ranked low enough, a rule keeps that asks for no others. -/
def ranked (resolve : Resolver) (rank : RuleId → Nat) (bound n : Nat)
    (hanswer : ∀ r m run, rank r + n ≤ bound → run.Below rank bound →
      Ensures (resolve r m) run fun _ run' => run'.Below rank bound) : Upkeep s resolve where
  inv := Run.Below rank bound
  place _ := True
  reads _ _ := True
  refers _ _ _ := True
  asked
    | .token _ => True
    | .reference r _ => rank r + n ≤ bound
  note _ h := h
  read _ _ h := Search.ensures_readToken.mpr ⟨h, fun _ _ => ⟨trivial, trivial⟩⟩
  answer hasked _ h := (hanswer _ _ _ hasked h).mono fun _ _ hpost =>
    ⟨hpost, fun _ _ _ _ => ⟨trivial, trivial⟩⟩

/-- Each level that is left is one that ranks may go up. -/
theorem deriveWithin_below (hclimbs : s.grammar.Climbs rank) (n : Nat) (r : RuleId) (p : Position)
    (run : Run) (hr : rank r + n ≤ bound) (h : run.Below rank bound) :
    Ensures (s.deriveWithin n r p) run fun _ run' => run'.Below rank bound := by
  induction n generalizing r p run with
  | zero =>
      refine ensures_consult.mpr ?_
      split
      · exact h
      · exact h
      · exact h
      · exact ensures_throw.mpr h
  | succ n ih =>
      refine ensures_consult.mpr ?_
      split
      · exact h
      · exact h
      · exact h
      · refine ensures_deriveFresh.mpr ?_
        split
        · exact h
        · next definition hdef =>
            let u := ranked (s := s) (fun r q => s.deriveWithin n r q >>= outputOf) rank bound n
              fun r m run hr h => ensures_bind.mpr ((ih r m run hr h).mono
                fun result _ h => match result with
                  | .ok _ => Search.ensures_outputOf.mpr h
                  | .error _ => h)
            have hadmits (x : Question)
                (hx : s.grammar.Asks u.reads u.refers definition.body p x) : u.asked x := by
              cases x with
              | token m => trivial
              | reference r' m =>
                  have := hclimbs r definition hdef r' hx.mem_parts
                  exact (by omega : rank r' + n ≤ bound)
            refine (u.evaluateAt definition.body trivial hadmits
              (h.record (run.enter_records r p) nofun)).mono fun result run₂ hpost => ?_
            obtain ⟨h₂, -⟩ := hpost
            cases result with
            | error f => exact h₂.record (run₂.fail_records r p f) nofun
            | ok out => exact h₂.record (run₂.succeed_records r p out) fun _ => by omega

/-- What was found below a rule of the lowest rank has a rank below the bound on nesting. -/
theorem derive_below (hclimbs : s.grammar.Climbs rank) {r : RuleId} (hr : rank r = 0)
    (p : Position) : Ensures (s.derive r p) {} fun _ run' => run'.Below rank s.maxDepth := by
  refine ensures_derive.mpr (deriveWithin_below hclimbs _ r p {} ?_ Run.below_empty)
  rw [hr, Nat.zero_add]
  exact Nat.sub_le _ _

end Session
end Multipath
