import Mathlib.Data.List.Forall2
import Multipath.Proofs.Choices
import Multipath.Proofs.SecureBranches

/-!
Branches extracted once more. What an extraction has put away and what its run has found out only
spare it work: as long as no rule has met itself, what it gives is what a fresh one on a fresh run
would give (`Session.branches_replay`). The fresh one might still have met a rule inside itself
where the other looked the answer up. It does not, because all that the other one examined, now or
when it put the branch away, is grounded (`Extraction.Repeatable`).
-/

namespace Multipath

open Extract (ofSearch)

/-- All that extracting a branch there examines is grounded. -/
def Session.Repeatable (s : Session) (x : Stretch) : Prop :=
  ∀ definition, s.grammar.rule? x.rule = some definition →
    s.Unentangled definition.body x.start x.stop

/-- Unless some rule met itself, it is so for all branches that were put away. -/
def Extraction.Repeatable (s : Session) (e : Extraction) : Prop :=
  e.run.stats.leftRecursionHits = 0 → ∀ (x : Stretch) t, e.built[x]? = some t → s.Repeatable x

section Built

/-- A search puts no branch away. -/
theorem ofSearch_keeps_built {α : Type} (x : Search α) :
    Keeps (fun e e' => e'.built = e.built) (ofSearch x) :=
  fun _ => ensures_ofSearch.mpr (Ensures.of_forall fun _ _ => rfl)

theorem built_steady : Steady fun e e' : Extraction => e'.built = e.built :=
  ⟨fun _ => rfl, fun h h' => h'.trans h⟩

variable {s : Session}

theorem reach_keeps_built (rule : Rule) (paths : PathSet) (stop : Position) :
    Keeps (fun e e' => e'.built = e.built) (s.reach rule paths stop) := by
  refine (ofSearch_keeps_built _).bind built_steady fun found => ?_
  cases found <;> exact .pure built_steady _

theorem buildTerminal_keeps_built (tag : TagId) (start stop : Position) :
    Keeps (fun e e' => e'.built = e.built) (s.buildTerminal tag start stop) := by
  refine (ofSearch_keeps_built _).bind built_steady fun found => ?_
  cases found with
  | error f => exact .pure built_steady none
  | ok token =>
      dsimp only
      split <;> exact .pure built_steady _

end Built

namespace Extraction.Repeatable

variable {s : Session} {e e' : Extraction} {x : Stretch}

theorem start (run : Run) : Repeatable s { run } := fun _ x t ht => by simp at ht

theorem of_built (h : e.Repeatable s) (hbuilt : e'.built = e.built)
    (hcounts : e'.run.stats.leftRecursionHits = 0 → e.run.stats.leftRecursionHits = 0) :
    e'.Repeatable s :=
  fun hhits x t ht => h (hcounts hhits) x t (hbuilt ▸ ht)

theorem search (h : e.Repeatable s) {run : Run} (hg : e.run.Grows run) :
    Repeatable s { e with run } :=
  h.of_built rfl fun hhits => Nat.le_zero.mp (hhits ▸ hg.hits)

theorem insert (h : e.Repeatable s) {t : Branch}
    (hx : e.run.stats.leftRecursionHits = 0 → s.Repeatable x) :
    Repeatable s { e with built := e.built.insert x t } := by
  intro hhits y t' ht'
  simp only [Std.TreeMap.getElem?_insert, Std.LawfulEqOrd.compare_eq_iff_eq] at ht'
  split at ht'
  · next heq => exact heq ▸ hx hhits
  · exact h hhits y t' ht'

end Extraction.Repeatable

namespace Footing

variable {s : Session} {under : Std.TreeSet Stretch} {depth : Nat} {e : Extraction}
  {branch : Session.BranchBuilder} {rule : RuleId} {p q : Position} {α : Type}

theorem below_empty {x : Reference} : Below s ∅ x := fun y hy => absurd hy (by simp)

/-- The same, held against extractions whose branches can all be extracted once more. -/
def tracing (s : Session) (under : Std.TreeSet Stretch) (depth : Nat) : Ideal s :=
  { (growing s).ideal under depth with
    inv := fun e => (growing s).Keeps under e ∧ e.Repeatable s }

theorem tracing_yields {x : Extract α} {sure : α → Prop} {settled : Except Failure α → Prop}
    (h : ((growing s).ideal under depth).Yields x e sure settled)
    (h' : Ensures x e fun _ e' => e'.Repeatable s) :
    (tracing s under depth).Yields x e sure settled :=
  Ensures.mono (Ensures.and h h') fun _ _ hpost =>
    ⟨⟨hpost.1.1, hpost.2⟩, hpost.1.2⟩

theorem tracing_yields_of_built {x : Extract α} {sure : α → Prop}
    {settled : Except Failure α → Prop}
    (h : ((growing s).ideal under depth).Yields x e sure settled) (he : e.Repeatable s)
    (hx : Ensures x e fun _ e' => e'.built = e.built) :
    (tracing s under depth).Yields x e sure settled :=
  tracing_yields h (Ensures.mono (Ensures.and h hx) fun _ _ hpost =>
    he.of_built hpost.2 hpost.1.2.1)

/-- Branches are put away only if they can be extracted once more. -/
def Retraces (s : Session) (under : Std.TreeSet Stretch) (branch : Session.BranchBuilder) : Prop :=
  ∀ rule p q e, (growing s).Keeps under e → e.Repeatable s → s.source.IsPlace p →
    Below s under ⟨p, rule⟩ → Ensures (branch rule p q) e fun result e' => e'.Repeatable s ∧
      (e'.run.stats.leftRecursionHits = 0 → (⟨rule, p, q⟩ : Stretch) ∉ under →
        ∀ found, result = .ok found → s.Repeatable ⟨rule, p, q⟩)

theorem buildNonterminal_repeatable (hbranch : Retraces s under branch) (q : Position)
    (h : (growing s).Keeps under e) (he : e.Repeatable s) (hp : s.source.IsPlace p)
    (hbelow : Below s under ⟨p, rule⟩) :
    Ensures (s.buildNonterminal branch rule p q) e fun _ e' => e'.Repeatable s := by
  refine ensures_bind.mpr (ensures_ofSearch.mpr (Search.ensures_attempt.mpr
    ((h.kept.derive hp).mono fun result run' hpost => ?_)))
  obtain ⟨hkept, hgrows, -⟩ := hpost
  have h' := h.search hkept hgrows
  have he' := he.search hgrows
  cases result with
  | error f =>
      dsimp only
      split
      · exact ensures_pure.mpr he'
      · exact he'
  | ok id =>
      refine ensures_bind.mpr (ensures_ofSearch.mpr (Search.ensures_outputOf.mpr ?_))
      dsimp only
      split
      · refine ensures_bind.mpr ((hbranch rule p q _ h' he' hp hbelow).mono
          fun result e₂ hpost => ?_)
        cases result with
        | error f => exact hpost.1
        | ok found => exact ensures_pure.mpr hpost.1
      · exact ensures_pure.mpr he'

theorem tracing_served (hs : ((growing s).ideal under depth).Served branch)
    (hbranch : Retraces s under branch) : (tracing s under depth).Served branch where
  reach stop h hadmits :=
    tracing_yields_of_built (hs.reach stop h.1 hadmits) h.2 (reach_keeps_built _ _ _ _)
  terminal q h hadmits :=
    tracing_yields_of_built (hs.terminal q h.1 hadmits) h.2 (buildTerminal_keeps_built _ _ _ _)
  nonterminal q h hadmits := tracing_yields (hs.nonterminal q h.1 hadmits)
    (buildNonterminal_repeatable hbranch q h.1 h.2 hadmits.1
      ((hadmits.2 _ .nonterminal).2 _ _ rfl))
  explores stop h := hs.explores stop h.1

/-- The body of a rule can be gone through once more if it was to the end. -/
theorem body_retraces (hs : ((growing s).ideal (under.insert ⟨rule, p, q⟩) depth).Served branch)
    (hbranches : (growing s).Branches (under.insert ⟨rule, p, q⟩) depth branch)
    (hbranch : Retraces s (under.insert ⟨rule, p, q⟩) branch)
    (h : (growing s).Keeps (under.insert ⟨rule, p, q⟩) e) (he : e.Repeatable s)
    (hp : s.source.IsPlace p) (hbelow : Below s under ⟨p, rule⟩) :
    Ensures (match s.grammar.rule? rule with
      | some definition => s.build branch definition.body p q
      | none => pure none) e fun result e' => e'.Repeatable s ∧
        (e'.run.stats.leftRecursionHits = 0 →
          ∀ found, result = .ok found → s.Repeatable ⟨rule, p, q⟩) := by
  split
  · next definition hdef =>
      have hadmits : ((growing s).ideal (under.insert ⟨rule, p, q⟩) depth).Admits
          definition.body p := ideal_admits hp trivial hbelow hdef q
      refine Ensures.mono (Ensures.and (Ideal.build_makes (tracing_served hs hbranch)
        definition.body p q _ ⟨h, he⟩ hadmits) (build_examined hs hbranches definition.body p _
          h hadmits)) fun result e₂ hpost => ?_
      obtain ⟨⟨⟨-, he₂⟩, -⟩, -, -, -, hexamined⟩ := hpost
      refine ⟨he₂, fun hhits found heq definition' hdef' => ?_⟩
      obtain rfl := Option.some.inj (hdef.symm.trans hdef')
      exact hexamined hhits found heq
  · next hdef =>
      refine ensures_pure.mpr ⟨he, fun _ _ _ definition hdef' => ?_⟩
      cases hdef.symm.trans hdef'

theorem branchFresh_retraces
    (hs : ((growing s).ideal (under.insert ⟨rule, p, q⟩) depth).Served branch)
    (hbranches : (growing s).Branches (under.insert ⟨rule, p, q⟩) depth branch)
    (hbranch : Retraces s (under.insert ⟨rule, p, q⟩) branch) (h : (growing s).Keeps under e)
    (he : e.Repeatable s) (hp : s.source.IsPlace p) (hbelow : Below s under ⟨p, rule⟩) :
    Ensures (s.branchFresh branch ⟨rule, p, q⟩) e fun result e' => e'.Repeatable s ∧
      (e'.run.stats.leftRecursionHits = 0 →
        ∀ found, result = .ok found → s.Repeatable ⟨rule, p, q⟩) := by
  have hbody := body_retraces hs hbranches hbranch (h.enter ⟨rule, p, q⟩) (e := e.enter _) he hp
    hbelow
  refine ensures_branchFresh hbody
    (fun f e₂ hpost => ⟨hpost.1, fun _ _ heq => by cases heq⟩)
    (fun e₂ hpost => ⟨hpost.1, fun hhits _ _ => hpost.2 hhits none rfl⟩)
    fun children e₂ hpost => ?_
  have hx (hhits : e₂.run.stats.leftRecursionHits = 0) := hpost.2 hhits (some children) rfl
  exact ⟨Extraction.Repeatable.insert (e := e₂.leave _) hpost.1 hx, fun hhits _ _ => hx hhits⟩

theorem branchWithin_retraces (under : Std.TreeSet Stretch) (depth : Nat) :
    Retraces s under fun rule p q => s.branchWithin depth rule p q := by
  have hreuse {under : Std.TreeSet Stretch} {e : Extraction} {x : Stretch}
      {fresh : Extract (Option Branch)} (h : (growing s).Keeps under e) (he : e.Repeatable s)
      (hfresh : Ensures fresh e fun result e' => e'.Repeatable s ∧
        (e'.run.stats.leftRecursionHits = 0 → ∀ found, result = .ok found → s.Repeatable x)) :
      Ensures (Session.reuse x fresh) e fun result e' => e'.Repeatable s ∧
        (e'.run.stats.leftRecursionHits = 0 → x ∉ under →
          ∀ found, result = .ok found → s.Repeatable x) :=
    ensures_reuse (fun t ht => ⟨he, fun hhits _ _ _ => he hhits x t ht⟩)
      (fun hactive => ⟨he, fun _ hnot => absurd ((h.active x).mp hactive) hnot⟩)
      fun _ _ => Ensures.mono hfresh fun _ _ hpost => ⟨hpost.1, fun hhits _ => hpost.2 hhits⟩
  induction depth generalizing under with
  | zero =>
      intro rule p q e h he hp hbelow
      exact hreuse h he (ensures_throw.mpr ⟨he, fun _ => nofun⟩)
  | succ depth ih =>
      intro rule p q e h he hp hbelow
      have hbranches := (growing s).branchWithin_yields (under.insert ⟨rule, p, q⟩) depth
      exact hreuse h he (branchFresh_retraces
        (ideal_served hbranches (branchWithin_faithful depth)) hbranches (ih _) h he hp hbelow)

/-- The body of a rule all of which is grounded, if the grammar has the rule. -/
theorem body_secure (hs : ((growing s).ideal (under.insert ⟨rule, p, q⟩) depth).Served branch)
    (hs' : ((secure s).ideal (under.insert ⟨rule, p, q⟩) depth).Served branch)
    (h : (secure s).Keeps (under.insert ⟨rule, p, q⟩) e) (hp : s.source.IsPlace p)
    (hbelow : Below s under ⟨p, rule⟩) (hrepeatable : s.Repeatable ⟨rule, p, q⟩) :
    Ensures (match s.grammar.rule? rule with
      | some definition => s.build branch definition.body p q
      | none => pure none) e fun _ e' => e'.run.stats.leftRecursionHits = 0 := by
  split
  · next definition hdef =>
      exact Ensures.mono (build_secure hs hs' definition.body _ h
        (ideal_admits hp trivial hbelow hdef q) (hrepeatable definition hdef))
        fun _ _ hpost => hpost.1.hits
  · exact ensures_pure.mpr h.hits

theorem branchFresh_secure
    (hs : ((growing s).ideal (under.insert ⟨rule, p, q⟩) depth).Served branch)
    (hs' : ((secure s).ideal (under.insert ⟨rule, p, q⟩) depth).Served branch)
    (h : (secure s).Keeps under e) (hp : s.source.IsPlace p) (hbelow : Below s under ⟨p, rule⟩)
    (hrepeatable : s.Repeatable ⟨rule, p, q⟩) :
    Ensures (s.branchFresh branch ⟨rule, p, q⟩) e
      fun _ e' => e'.run.stats.leftRecursionHits = 0 :=
  ensures_branchFresh (body_secure hs hs' (h.enter ⟨rule, p, q⟩) hp hbelow hrepeatable)
    (fun _ _ => id) (fun _ => id) fun _ _ => id

/-- Where all that is examined is grounded, no rule meets itself on a run that is secure. -/
theorem branch_secure (h : (secure s).Keeps ∅ e) (hp : s.source.IsPlace p)
    (hrepeatable : s.Repeatable ⟨rule, p, q⟩) :
    Ensures (s.branch rule p q) e fun _ e' => e'.run.stats.leftRecursionHits = 0 := by
  refine ensures_bind.mpr (ensures_get.mpr ?_)
  dsimp only
  have hreuse {fresh : Extract (Option Branch)}
      (hfresh : Ensures fresh e fun _ e' => e'.run.stats.leftRecursionHits = 0) :
      Ensures (Session.reuse ⟨rule, p, q⟩ fresh) e
        fun _ e' => e'.run.stats.leftRecursionHits = 0 :=
    ensures_reuse (fun _ _ => h.hits) (fun _ => h.hits) fun _ _ => hfresh
  generalize s.maxDepth - e.active.size = depth
  cases depth with
  | zero => exact hreuse (ensures_throw.mpr h.hits)
  | succ depth =>
      have hserved (b : Footing s) (under : Std.TreeSet Stretch) :
          (b.ideal under depth).Served fun r p q => s.branchWithin depth r p q :=
        ideal_served (b.branchWithin_yields under depth) (branchWithin_faithful depth)
      exact hreuse (branchFresh_secure (hserved _ _) (hserved _ _) h hp below_empty hrepeatable)

end Footing

namespace Extraction.During

variable {s : Session} {under : Std.TreeSet Stretch} {e e' : Extraction} {rule : RuleId}
  {p q : Position}

/-- At every moment all branches that were put away can be extracted once more. -/
theorem repeatable (h : e.During s under) : e.Repeatable s := by
  induction h with
  | fresh => exact .start {}
  | evaluate h hinput hrun ih => exact ih.search ((h.keeps.kept.follow hinput).of_run hrun).2.1
  | derive h hp hrun ih => exact ih.search ((h.keeps.kept.derive hp).of_run hrun).2.1
  | read h hp hrun ih => exact ih.search ((h.keeps.kept.readToken hp).of_run hrun).2.1
  | enter _ _ _ ih => exact ih
  | branch h hp hbelow hrun ih =>
      exact ((Footing.branchWithin_retraces _ _ _ _ _ _ h.keeps ih hp hbelow).of_run hrun).1
  | @renew e _ _ => exact .start e.run

end Extraction.During

/-- Only one branch can be the right one. -/
theorem Session.Chooses.found_eq {s : Session} {rule : RuleId} {p q : Position}
    {found found' : Option Branch} (h : s.Chooses rule p q (.ok found))
    (h' : s.Chooses rule p q (.ok found')) : found = found' := by
  obtain ⟨hsome, hprefers⟩ := h
  obtain ⟨hsome', hprefers'⟩ := h'
  have hiff := hsome.trans hsome'.symm
  match found, found' with
  | none, none => rfl
  | none, some b' => simp at hiff
  | some b, none => simp at hiff
  | some b, some b' =>
      have htree : [b.tree] = [b'.tree] := (hprefers' b' rfl _).mp ((hprefers b rfl _).mpr rfl)
      cases b
      cases b'
      simpa [Branch.tree] using htree

namespace Session

/-- Branches extracted one after the other on one extractor, whatever comes of each. -/
def branches (s : Session) : List Stretch → Extraction →
    List (Except Failure (Option Branch)) × Extraction
  | [], e => ([], e)
  | x :: xs, e =>
      let (result, e') := (s.branch x.rule x.start x.stop).run.run e
      let (results, e'') := s.branches xs e'
      (result :: results, e'')

/-- A fresh extractor on a fresh run gives the same for that stretch, unless one of the two ran into
the bound on nesting. -/
def Replays (s : Session) (x : Stretch) (result : Except Failure (Option Branch)) : Prop :=
  (∀ r m, result ≠ .error (.depthLimit r m)) →
    ∀ fresh e, (s.branch x.rule x.start x.stop).run.run { run := {} } = (fresh, e) →
      (∀ r m, fresh ≠ .error (.depthLimit r m)) → result = fresh

variable {s : Session} {e e' : Extraction} {x : Stretch} {result : Except Failure (Option Branch)}

/-- What branches, nodes and failures were kept does not matter for what is extracted. -/
theorem replays_of_branch (h : e.During s ∅) (hp : s.source.IsPlace x.start)
    (hrun : (s.branch x.rule x.start x.stop).run.run e = (result, e'))
    (hhits : e'.run.stats.leftRecursionHits = 0) : s.Replays x result := by
  intro huncut fresh e'' hfresh huncut'
  have hchosen := h.chooses hp hrun hhits
  match result, hchosen, huncut with
  | .error f, hfails, huncut =>
      obtain ⟨r, m, rfl⟩ := hfails
      exact absurd rfl (huncut r m)
  | .ok found, hchosen, _ =>
      -- the fresh run meets no rule inside itself either, so that both calls make the same choices
      have hrepeatable : s.Repeatable x :=
        ((Footing.branchWithin_retraces ∅ _ x.rule x.start x.stop e h.keeps h.repeatable hp
          Footing.below_empty).of_run hrun).2 hhits (by simp) found rfl
      have hsecure : (Footing.secure s).Keeps ∅ { run := {} } :=
        Footing.keeps_start ⟨Run.reliable_fresh s, .fresh s⟩
      have hhits' : e''.run.stats.leftRecursionHits = 0 :=
        (Footing.branch_secure hsecure hp hrepeatable).of_run hfresh
      have hchosen' := Extraction.During.fresh.chooses hp hfresh hhits'
      match fresh, hchosen', huncut' with
      | .error f, hfails, huncut' =>
          obtain ⟨r, m, rfl⟩ := hfails
          exact absurd rfl (huncut' r m)
      | .ok found', hchosen', _ => exact congrArg _ (hchosen.found_eq hchosen')

/-- One call after another, by induction: a run without a hit at the end had none after any call. -/
theorem during_branches (h : e.During s ∅) {xs : List Stretch}
    (hxs : ∀ x ∈ xs, s.source.IsPlace x.start) :
    (s.branches xs e).2.During s ∅ ∧
      ((s.branches xs e).2.run.stats.leftRecursionHits = 0 →
        e.run.stats.leftRecursionHits = 0 ∧ List.Forall₂ s.Replays xs (s.branches xs e).1) := by
  induction xs generalizing e with
  | nil => exact ⟨h, fun hhits => ⟨hhits, .nil⟩⟩
  | cons x xs ih =>
      rcases hrun : (s.branch x.rule x.start x.stop).run.run e with ⟨result, e'⟩
      have hp := hxs x List.mem_cons_self
      have h' : e'.During s ∅ := h.branch hp Footing.below_empty hrun
      obtain ⟨hduring, hreplays⟩ := ih h' fun y hy => hxs y (List.mem_cons_of_mem x hy)
      have hcounts : e'.run.stats.leftRecursionHits = 0 → e.run.stats.leftRecursionHits = 0 :=
        (((Footing.growing s).branchWithin_yields ∅ _ _ _ x.stop _ h.keeps hp trivial
          Footing.below_empty).of_run hrun).2.1
      simp only [branches, hrun]
      refine ⟨hduring, fun hhits => ?_⟩
      obtain ⟨hhits', hrest⟩ := hreplays hhits
      exact ⟨hcounts hhits', .cons (replays_of_branch h hp hrun hhits') hrest⟩

/-- An extractor may be used again, whatever comes of its calls. After each of them nothing is under
way, and as long as no rule has met itself on the run, each gives what a fresh extractor on a fresh
run would have given. -/
theorem branches_replay {s : Session} {e : Extraction} (h : e.During s ∅) {xs : List Stretch}
    (hxs : ∀ x ∈ xs, s.source.IsPlace x.start) :
    (∀ x, x ∉ (s.branches xs e).2.active) ∧
      ((s.branches xs e).2.run.stats.leftRecursionHits = 0 →
        List.Forall₂ s.Replays xs (s.branches xs e).1) := by
  obtain ⟨hduring, hreplays⟩ := during_branches h hxs
  exact ⟨fun x hx => absurd ((hduring.keeps.active x).mp hx) (by simp),
    fun hhits => (hreplays hhits).2⟩

/-- Asked for a list that ends with a comma, then for the whole list of two items. -/
theorem branches_replay_lists :
    ∃ b, ((Samples.listSession "a,a").branches [⟨0, .start, ⟨2, 1, 3⟩⟩, ⟨0, .start, ⟨3, 1, 4⟩⟩]
        { run := {} }).1 = [.ok none, .ok (some b)] ∧
      (∀ x, x ∉ ((Samples.listSession "a,a").branches
        [⟨0, .start, ⟨2, 1, 3⟩⟩, ⟨0, .start, ⟨3, 1, 4⟩⟩] { run := {} }).2.active) ∧
      (((Samples.listSession "a,a").branch 0 .start ⟨3, 1, 4⟩).run.run { run := {} }).1 =
        .ok (some b) := by
  have hstart := (Samples.listSession "a,a").source.isPlace_start
  have hplaces : ∀ x ∈ [(⟨0, .start, ⟨2, 1, 3⟩⟩ : Stretch), ⟨0, .start, ⟨3, 1, 4⟩⟩],
      (Samples.listSession "a,a").source.IsPlace x.start := by simp [hstart]
  obtain ⟨hactive, hreplays⟩ := branches_replay Extraction.During.fresh hplaces
  have hhits : ((Samples.listSession "a,a").branches
      [⟨0, .start, ⟨2, 1, 3⟩⟩, ⟨0, .start, ⟨3, 1, 4⟩⟩] { run := {} }).2.run.stats.leftRecursionHits
        = 0 := by decide +kernel
  have hresults : ((Samples.listSession "a,a").branches
      [⟨0, .start, ⟨2, 1, 3⟩⟩, ⟨0, .start, ⟨3, 1, 4⟩⟩] { run := {} }).1.map
        (fun r => r.toOption.map Option.isSome) = [some false, some true] := by decide +kernel
  have hfresh : (((Samples.listSession "a,a").branch 0 .start ⟨3, 1, 4⟩).run.run
      { run := {} }).1.toOption.isSome = true := by decide +kernel
  have hreplays := hreplays hhits
  revert hresults hreplays
  generalize ((Samples.listSession "a,a").branches _ _).1 = results
  intro hresults hreplays
  match results, hresults, hreplays with
  | [.ok none, .ok (some b)], _, .cons _ (.cons hb .nil) =>
      refine ⟨b, rfl, hactive, ?_⟩
      rcases hrun : ((Samples.listSession "a,a").branch 0 .start ⟨3, 1, 4⟩).run.run { run := {} }
        with ⟨_ | found, e⟩ <;> rw [hrun] at hfresh
      · cases hfresh
      · exact (hb nofun _ _ hrun nofun).symm

end Session

end Multipath
