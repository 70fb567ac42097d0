import Multipath.Proofs.HaltingFragments

/-!
Branches come to an end. They nest, and every branch that is under way stands for a stretch of its
own: a rule between a position of the chain and a stop. There are finitely many of these, so after
finitely many levels none is left to be entered (`Session.Room.enter`), whatever the limit on
nesting.
-/

namespace Multipath

open Search (outputOf)
open Extract (ofSearch)
open Fragment (BuildHalts ofRule)

section Building
variable {s : Session} {limit : Limit} {start : Position} {stops : List Position}
  {active : Std.TreeSet Stretch} {branch : Session.BranchBuilder}

/-- Branches halt from every extraction with those stretches under way. -/
def Session.BranchesHalt (s : Session) (limit : Limit) (start : Position)
    (stops : List Position) (active : Std.TreeSet Stretch) (branch : BranchBuilder) : Prop :=
  ∀ rule p q e, e.Ready s start active → s.source.OnChain start p → q ∈ stops →
    HaltsIn (Extraction.Ready s start active) (Limit.branch s limit rule p q)
      (branch rule p q) e fun _ => True

/-- Nothing is built backwards, and the rest by cases. -/
theorem forward_halts {x : ExceptT Failure (Endless Extraction) (Option (List Tree))}
    {y : Extract (Option (List Tree))} {p q : Position} {e : Extraction}
    (h : e.Ready s start active)
    (hx : HaltsIn (Extraction.Ready s start active) x.run y e fun _ => True) :
    HaltsIn (Extraction.Ready s start active) (if q < p then pure none else x).run
      (Session.forward p q y) e fun _ => True := by
  unfold Session.forward
  split
  · exact .pure h trivial
  · exact hx

theorem buildNonterminal_halts (hlimit : s.Admits start limit)
    (hbranch : s.BranchesHalt limit start stops active branch) (rule : RuleId) {p q : Position}
    {e : Extraction} (h : e.Ready s start active) (hp : s.source.OnChain start p) (hq : q ∈ stops) :
    HaltsIn (Extraction.Ready s start active)
      (do
        match ← Endless.attempt (Limit.derive s limit rule p) with
        | .error _ => pure none
        | .ok node =>
          if q ∈ (← get).run.arena.output node then do
            let found ← (Limit.branch s limit rule p q :
              ExceptT Failure (Endless Extraction) (Option Branch))
            pure (found.map fun b => [b.tree])
          else pure none : ExceptT Failure (Endless Extraction) (Option (List Tree))).run
      (s.buildNonterminal branch rule p q) e fun _ => True := by
  unfold Session.buildNonterminal
  refine (attempt_derive_halts hlimit rule h hp).bind fun found e' h' _ => ?_
  cases found with
  | error f => exact .pure h' trivial
  | ok node =>
      have hnext : HaltsIn (Extraction.Ready s start active)
          (if q ∈ e'.run.arena.output node then do
            let found ← (Limit.branch s limit rule p q :
              ExceptT Failure (Endless Extraction) (Option Branch))
            pure (found.map fun b => [b.tree])
          else pure none : ExceptT Failure (Endless Extraction) (Option (List Tree))).run
          (if q ∈ e'.run.arena.output node then do
            pure ((← branch rule p q).map fun b => [b.tree])
          else pure none) e' fun _ => True := by
        split
        · exact HaltsIn.bind (hbranch rule p q e' h' hp hq) fun _ _ h'' _ => .pure h'' trivial
        · exact .pure h' trivial
      exact hnext

theorem nothing_halts {p q : Position} {e : Extraction} (h : e.Ready s start active) :
    HaltsIn (Extraction.Ready s start active)
      (pure (Session.nothing p q) : ExceptT Failure (Endless Extraction) (Option (List Tree))).run
      (pure (Session.nothing p q)) e fun _ => True := .pure h trivial

mutual

theorem build_halts (hlimit : s.Admits start limit)
    (hstops : ∀ q, s.source.OnChain start q → q ∈ stops)
    (hbranch : s.BranchesHalt limit start stops active branch) :
    ∀ rule : Rule, BuildHalts s limit start stops active branch rule
  | .terminal tag, p, q, e, h, hp, hq => by
      rw [Limit.build, Session.build]
      exact forward_halts h (buildTerminal_halts tag q h hp)
  | .nonterminal rule, p, q, e, h, hp, hq => by
      rw [Limit.build, Session.build]
      exact forward_halts h (buildNonterminal_halts hlimit hbranch rule h hp hq)
  | .sequence items, p, q, e, h, hp, hq => by
      rw [Limit.build, Session.build, fragments_eq]
      have hitems := buildItems_halts hlimit hstops hbranch items
      exact forward_halts h (Fragment.inSequence_halts hlimit hstops q hitems h hp)
  | .optional body, p, q, e, h, hp, hq => by
      rw [Limit.build, Session.build]
      have hbody := build_halts hlimit hstops hbranch body p q e h hp hq
      refine forward_halts h (hbody.bind fun found e' h' _ => ?_)
      cases found with
      | some nodes => exact .pure h' trivial
      | none => exact nothing_halts h'
  | .repetition body, p, q, e, h, hp, hq => by
      rw [Limit.build, Session.build]
      have hbody := build_halts hlimit hstops hbranch body
      exact forward_halts h (.of_get (Fragment.inRepetition_halts hlimit hbody hstops h hp))
  | .alternation choices, p, q, e, h, hp, hq => by
      rw [Limit.build, Session.build]
      exact forward_halts h (buildFirst_halts hlimit hstops hbranch choices p q e h hp hq)
  | .switch feature body, p, q, e, h, hp, hq => by
      rw [Limit.build, Session.build]
      refine forward_halts h ?_
      split
      · exact build_halts hlimit hstops hbranch body p q e h hp hq
      · exact nothing_halts h

theorem buildFirst_halts (hlimit : s.Admits start limit)
    (hstops : ∀ q, s.source.OnChain start q → q ∈ stops)
    (hbranch : s.BranchesHalt limit start stops active branch) :
    ∀ (choices : List Rule) (p q : Position) (e : Extraction), e.Ready s start active →
      s.source.OnChain start p → q ∈ stops →
      HaltsIn (Extraction.Ready s start active) (Limit.buildFirst s limit choices p q).run
        (s.buildFirst branch choices p q) e fun _ => True
  | [], p, q, e, h, _, _ => by
      rw [Limit.buildFirst, Session.buildFirst]
      exact .pure h trivial
  | choice :: choices, p, q, e, h, hp, hq => by
      rw [Limit.buildFirst, Session.buildFirst]
      refine (build_halts hlimit hstops hbranch choice p q e h hp hq).bind fun found e' h' _ => ?_
      cases found with
      | some nodes => exact .pure h' trivial
      | none => exact buildFirst_halts hlimit hstops hbranch choices p q e' h' hp hq

theorem buildItems_halts (hlimit : s.Admits start limit)
    (hstops : ∀ q, s.source.OnChain start q → q ∈ stops)
    (hbranch : s.BranchesHalt limit start stops active branch) :
    ∀ (items : List Rule), ∀ item ∈ items, BuildHalts s limit start stops active branch item
  | [], _, hitem => absurd hitem List.not_mem_nil
  | item :: items, other, hother => by
      by_cases heq : other = item
      · rw [heq]
        exact build_halts hlimit hstops hbranch item
      · have hother := (List.mem_cons.mp hother).resolve_left heq
        exact buildItems_halts hlimit hstops hbranch items other hother

end

end Building

section Stretches

/-- The stretches from the chain to certain stops. -/
def Session.stretches (s : Session) (start : Position) (stops : List Position) : List Stretch :=
  (s.references start).flatMap fun r => stops.map fun q => ⟨r.rule, r.position, q⟩

theorem Session.mem_stretches {s : Session} {start p q : Position} {stops : List Position}
    {rule : RuleId} (hrule : s.grammar.rule? rule ≠ none) (hp : s.source.OnChain start p)
    (hq : q ∈ stops) : ⟨rule, p, q⟩ ∈ s.stretches start stops :=
  List.mem_flatMap.mpr
    ⟨⟨p, rule⟩, s.mem_references hrule hp, List.mem_map.mpr ⟨q, hq, rfl⟩⟩

theorem Session.size_le_of_stretches {s : Session} {start : Position} {stops : List Position}
    {active : Std.TreeSet Stretch} (h : ∀ stretch ∈ active, stretch ∈ s.stretches start stops) :
    active.size ≤ (s.stretches start stops).length := by
  rw [← Std.TreeSet.length_toList]
  apply List.Nodup.length_le_of_subset
  · exact Std.TreeSet.distinct_toList.imp fun hne heq =>
      hne (Std.LawfulEqOrd.compare_eq_iff_eq.mpr heq)
  · exact fun stretch hmem => h stretch (Std.TreeSet.mem_toList.mp hmem)

/-- Stretches are under way, and branches may nest `depth` levels deeper before `k` others are. -/
structure Session.Room (s : Session) (limit : Limit) (start : Position)
    (stops : List Position) (depth k : Nat) (active : Std.TreeSet Stretch) : Prop where
  within : ∀ stretch ∈ active, stretch ∈ s.stretches start stops
  left : (s.stretches start stops).length ≤ active.size + k
  levels : match limit with
    | some most => depth = most - active.size
    | none => (s.stretches start stops).length < active.size + depth

namespace Session.Room

variable {s : Session} {limit : Limit} {start : Position} {stops : List Position}
  {depth k : Nat} {active : Std.TreeSet Stretch} {stretch : Stretch}

theorem isFull_iff (h : s.Room limit start stops depth k active) :
    limit.isFull active.size = true ↔ depth = 0 := by
  have hle := size_le_of_stretches h.within
  have hlevels := h.levels
  cases limit with
  | none =>
      dsimp only at hlevels
      simp only [Limit.isFull, Option.any_none, Bool.false_eq_true, false_iff]
      omega
  | some most =>
      dsimp only at hlevels
      simp only [Limit.isFull, Option.any_some, decide_eq_true_eq]
      omega

/-- A stretch that is entered takes up a level, and one of those that were left. -/
theorem enter (h : s.Room limit start stops (depth + 1) k active)
    (hmem : stretch ∈ s.stretches start stops) (hnew : stretch ∉ active) :
    ∃ k', k = k' + 1 ∧ s.Room limit start stops depth k' (active.insert stretch) := by
  have hsize : (active.insert stretch).size = active.size + 1 := by
    rw [Std.TreeSet.size_insert, if_neg fun hold => hnew (Std.TreeSet.mem_iff_contains.mpr hold)]
  have hwithin : ∀ other ∈ active.insert stretch, other ∈ s.stretches start stops := by
    intro other hother
    rw [Std.TreeSet.mem_insert, Std.LawfulEqOrd.compare_eq_iff_eq] at hother
    obtain rfl | hother := hother
    · exact hmem
    · exact h.within other hother
  have hle := size_le_of_stretches hwithin
  have hleft := h.left
  refine ⟨k - 1, by omega, hwithin, by omega, ?_⟩
  have hlevels := h.levels
  cases limit with
  | none =>
      dsimp only at hlevels ⊢
      omega
  | some most =>
      dsimp only at hlevels ⊢
      omega

end Session.Room
end Stretches

section Branches
variable {s : Session} {limit : Limit} {start : Position} {stops : List Position}
  {active : Std.TreeSet Stretch} {depth k : Nat} {e : Extraction}

theorem Extraction.Ready.enter (h : e.Ready s start active) (stretch : Stretch) :
    (e.enter stretch).Ready s start (active.insert stretch) where
  valid := h.valid
  resting := h.resting
  defined := h.defined
  active_iff other := by
    simp only [Extraction.enter, Std.TreeSet.mem_insert, h.active_iff]

theorem Extraction.Ready.leave {stretch : Stretch} (hnew : stretch ∉ active)
    (h : e.Ready s start (active.insert stretch)) : (e.leave stretch).Ready s start active where
  valid := h.valid
  resting := h.resting
  defined := h.defined
  active_iff := Stretch.mem_erase_iff h.active_iff hnew

/-- The branch of a stretch is there, is refused inside itself, or is found out by `fresh`. -/
theorem branch_halts_of_fresh {rule : RuleId} {p q : Position} {fresh : Extract (Option Branch)}
    (h : e.Ready s start active)
    (hfresh : e.built[(⟨rule, p, q⟩ : Stretch)]? = none → (⟨rule, p, q⟩ : Stretch) ∉ e.active →
      HaltsIn (Extraction.Ready s start active) (Limit.branch s limit rule p q) fresh e
        fun _ => True) :
    HaltsIn (Extraction.Ready s start active) (Limit.branch s limit rule p q)
      (Session.reuse ⟨rule, p, q⟩ fresh) e fun _ => True := by
  refine .of_get ?_
  cases hbuilt : e.built[(⟨rule, p, q⟩ : Stretch)]? with
  | some b =>
      refine ⟨?_, ensures_pure.mpr ⟨h, fun _ _ => trivial⟩⟩
      show Limit.branch s limit rule p q e = _
      rw [Limit.branch, Endless.get_bind]
      dsimp only
      rw [hbuilt]
      rfl
  | none =>
      dsimp only
      split
      · next hactive =>
          refine ⟨?_, ensures_pure.mpr ⟨h, fun _ _ => trivial⟩⟩
          show Limit.branch s limit rule p q e = _
          rw [Limit.branch, Endless.get_bind]
          dsimp only
          rw [hbuilt]
          dsimp only
          rw [if_pos hactive]
          rfl
      · next hactive =>
          exact hfresh hbuilt fun hmem => hactive (Std.TreeSet.mem_iff_contains.mp hmem)

/-- A new stretch is cut off where no level is left, and else it is under way while the body of its
rule is built. -/
theorem branch_of_new {rule : RuleId} {p q : Position}
    (hbuilt : e.built[(⟨rule, p, q⟩ : Stretch)]? = none)
    (hnew : (⟨rule, p, q⟩ : Stretch) ∉ e.active) :
    Limit.branch s limit rule p q e =
      if limit.isFull e.active.size then some (.error (.depthLimit rule p), e)
      else
        (do
          let derived ← (match s.grammar.rule? rule with
            | some definition => (Limit.build s limit definition.body p q).run
            | none => pure (.ok none))
          modify (·.leave ⟨rule, p, q⟩)
          match derived with
          | .error failure => pure (.error failure)
          | .ok none => pure (.ok none)
          | .ok (some children) =>
            let b : Branch := ⟨s.grammar.name rule, ⟨p, q⟩, children⟩
            modify fun e => { e with built := e.built.insert ⟨rule, p, q⟩ b }
            pure (.ok (some b)) : Endless Extraction (Except Failure (Option Branch)))
          (e.enter ⟨rule, p, q⟩) := by
  rw [Limit.branch, Endless.get_bind]
  dsimp only
  rw [hbuilt]
  dsimp only
  rw [if_neg fun hactive => hnew (Std.TreeSet.mem_iff_contains.mpr hactive)]
  split
  · rfl
  · rfl

theorem branchFresh_halts {branch : Session.BranchBuilder} {rule : RuleId} {p q : Position}
    (hlimit : s.Admits start limit) (hstops : ∀ q, s.source.OnChain start q → q ∈ stops)
    (hbranch : s.grammar.rule? rule ≠ none →
      s.BranchesHalt limit start stops (active.insert ⟨rule, p, q⟩) branch)
    (h : e.Ready s start active) (hp : s.source.OnChain start p) (hq : q ∈ stops)
    (hbuilt : e.built[(⟨rule, p, q⟩ : Stretch)]? = none)
    (hnew : (⟨rule, p, q⟩ : Stretch) ∉ active)
    (hfull : ¬limit.isFull e.active.size = true) :
    HaltsIn (Extraction.Ready s start active) (Limit.branch s limit rule p q)
      (s.branchFresh branch ⟨rule, p, q⟩) e fun _ => True := by
  have hnew' : (⟨rule, p, q⟩ : Stretch) ∉ e.active := fun hmem => hnew ((h.active_iff _).mp hmem)
  have hentered := h.enter ⟨rule, p, q⟩
  have hbody : HaltsIn (Extraction.Ready s start (active.insert ⟨rule, p, q⟩))
      (match s.grammar.rule? rule with
        | some definition => (Limit.build s limit definition.body p q).run
        | none => pure (.ok none))
      (match s.grammar.rule? rule with
        | some definition => s.build branch definition.body p q
        | none => pure none) (e.enter ⟨rule, p, q⟩) fun _ => True := by
    cases hdef : s.grammar.rule? rule with
    | none => exact .pure hentered trivial
    | some definition =>
        have hnested := hbranch (by simp [hdef])
        exact build_halts hlimit hstops hnested definition.body p q _ hentered hp hq
  refine .of_modify ((branch_of_new hbuilt hnew').trans (if_neg hfull))
    (hbody.settled fun result after hafter => ?_)
  have hleft := hafter.leave hnew
  cases result with
  | error f => exact ⟨rfl, hleft, fun _ _ => trivial⟩
  | ok found =>
      cases found with
      | none => exact ⟨rfl, hleft, fun _ _ => trivial⟩
      | some children =>
          exact ⟨rfl, ⟨hleft.valid, hleft.resting, hleft.defined, hleft.active_iff⟩,
            fun _ _ => trivial⟩

/-- Branches halt, by induction on the stretches that are left to be entered. -/
theorem branches_halt (hlimit : s.Admits start limit)
    (hstops : ∀ q, s.source.OnChain start q → q ∈ stops) (k depth : Nat)
    (hroom : s.Room limit start stops depth k active) :
    s.BranchesHalt limit start stops active fun r p q => s.branchWithin depth r p q := by
  induction k using Nat.strongRecOn generalizing depth active with
  | ind k ih =>
      intro rule p q e h hp hq
      have hfull := hroom.isFull_iff
      rw [← h.size_active] at hfull
      cases depth with
      | zero =>
          refine branch_halts_of_fresh h fun hbuilt hnew => ⟨ensures_throw.mpr ?_, h, ?_⟩
          · rw [branch_of_new hbuilt hnew, if_pos (hfull.mpr rfl)]
          · intro a heq
            cases heq
      | succ depth =>
          refine branch_halts_of_fresh h fun hbuilt hnew => ?_
          have hnew : (⟨rule, p, q⟩ : Stretch) ∉ active :=
            fun hmem => hnew ((h.active_iff _).mpr hmem)
          refine branchFresh_halts hlimit hstops (fun hrule => ?_) h hp hq hbuilt hnew
            (by simp [hfull])
          obtain ⟨k', rfl, hroom'⟩ := hroom.enter (Session.mem_stretches hrule hp hq) hnew
          exact ih k' (Nat.lt_succ_self k') depth hroom'

end Branches
end Multipath
