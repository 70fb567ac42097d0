import Multipath.Proofs.Contexts
import Multipath.Proofs.PreferredTrees

/-!
The tree of a parse. Once a winner is selected and no rule met itself, parsing gives the preferred
derivation of the start rule up to the winner, unless that nests too deeply. This can be so although
nothing nested too deeply while the start rule was derived (`Session.selection_falls_short`): a rule
that is remembered is not derived once more where it is asked for again, but its branch nests there.
-/

namespace Multipath

namespace Session

variable {s : Session} {trailing : Bool} {run : Run} {rule : RuleId} {root : NodeId}
  {start stop : Position}

/-- For a winner there is one preferred derivation of the start rule. Parsing gives its tree, or
else this nests more branches than the bound allows and that is what is reported. -/
theorem parse_of_selection (hstart : s.source.IsPlace start)
    (hselect : s.grammar.selectStart s.source.conditions = .ok rule)
    (hderive : (s.derive rule start).run.run {} = (.ok root, run))
    (hhits : run.stats.leftRecursionHits = 0)
    (hwinner : s.winner? trailing (run.arena.output root) = some stop) :
    ∃ t : Branch, (∀ ts, s.Prefers (.nonterminal rule) start stop ts ↔ ts = [t.tree]) ∧
      ((∃ r, s.parse trailing start = .ok r ∧ r.tree = t) ∨
        s.maxDepth < t.tree.nesting ∧
          ∃ name p, s.parse trailing start = .error (.depthLimit name p s.maxDepth)) := by
  obtain ⟨ts, hts, hbranch⟩ := winner_prefers hstart hderive hhits hwinner
  obtain ⟨t, rfl⟩ : ∃ t : Branch, ts = [t.tree] := by
    cases hts with
    | nonterminal _ _ => exact ⟨⟨_, _, _⟩, rfl⟩
  refine ⟨t, fun us => ⟨fun hus => hus.unique hts, fun heq => heq ▸ hts⟩, ?_⟩
  rcases hrun : (s.branch rule start stop).run.run { run := run.setOutput root {stop} }
    with ⟨result, e'⟩
  have hfound := hbranch.of_run hrun
  rw [parse_eq_of_winner hselect hderive hwinner hrun]
  cases result with
  | ok found =>
      obtain ⟨t', rfl, heq⟩ := hfound
      refine .inl ⟨_, rfl, ?_⟩
      obtain ⟨⟩ := t
      obtain ⟨⟩ := t'
      simpa [Branch.tree, eq_comm] using heq
  | error f =>
      obtain ⟨⟨r, m, rfl⟩, hdeep⟩ := hfound
      exact .inr ⟨by simpa [Tree.nestingAll] using hdeep, _, _, rfl⟩

/-- The tree of a list of two items is the preferred one. -/
theorem parse_of_selection_lists : ∃ t : Branch,
    (∀ ts, (Samples.listSession "a,a").Prefers (.nonterminal 0) .start ⟨3, 1, 4⟩ ts ↔
      ts = [t.tree]) ∧
    ((∃ r, (Samples.listSession "a,a").parse true .start = .ok r ∧ r.tree = t) ∨
      8 < t.tree.nesting ∧ ∃ name p,
        (Samples.listSession "a,a").parse true .start = .error (.depthLimit name p 8)) := by
  obtain ⟨run, hderive, -, hwinner, hhits, -⟩ := listSession_derived true
  exact parse_of_selection (Samples.listSession "a,a").source.isPlace_start rfl hderive hhits
    hwinner

end Session

/-- The root `Root: (Low Comma | High);`, by which `High` comes to rest on a `Low` that was derived
in vain. -/
def Samples.highAbove : Session :=
  stairs (.alternation [.sequence [.nonterminal 1, .terminal 1], .nonterminal 3])

/-- Derivations nest no deeper than allowed, and a winner is found, whose tree nests too deeply. -/
theorem Session.selection_falls_short : ∃ root run,
    (Samples.highAbove.derive 0 .start).run.run {} = (.ok root, run) ∧
      run.stats.leftRecursionHits = 0 ∧ run.stats.maxDepth ≤ Samples.highAbove.maxDepth ∧
      Samples.highAbove.winner? true (run.arena.output root) = some ⟨1, 1, 2⟩ ∧
      Samples.highAbove.parse true .start = .error (.depthLimit "Low" .start 3) := by
  have hroot : ((Samples.highAbove.derive 0 .start).run.run {}).1 = .ok 4 :=
    ok_of_toOption (by decide +kernel)
  have hderive : (Samples.highAbove.derive 0 .start).run.run {} = (.ok 4, _) := Prod.ext hroot rfl
  have hpaths : (((Samples.highAbove.derive 0 .start).run.run {}).2.arena.output 4).toList =
      [⟨1, 1, 2⟩] := by decide +kernel
  have hwinner : Samples.highAbove.winner? true
      (((Samples.highAbove.derive 0 .start).run.run {}).2.arena.output 4) = some ⟨1, 1, 2⟩ := by
    simp only [winner?_eq_some, ← Std.ExtTreeSet.mem_toList, hpaths]
    decide +kernel
  have hcut : failure? ((Samples.highAbove.branch 0 .start ⟨1, 1, 2⟩).run.run
      ⟨((Samples.highAbove.derive 0 .start).run.run {}).2.setOutput 4 {⟨1, 1, 2⟩}, ∅, ∅⟩).1 =
        some (.depthLimit 1 .start) := by decide +kernel
  refine ⟨4, _, hderive, by decide +kernel, by decide +kernel, hwinner, ?_⟩
  rw [parse_eq_of_winner rfl hderive hwinner (Prod.ext (error_of_failure? hcut) rfl)]
  rfl

end Multipath
