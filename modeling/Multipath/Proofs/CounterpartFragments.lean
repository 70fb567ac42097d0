import Multipath.Proofs.Counterparts
import Multipath.Proofs.Halting
import Multipath.Proofs.Repetitions

/-!
Sequences and repetitions extracted in a session that goes along with another one. Its fragments
are the other's, with fragments among them that stay where they are and build nothing; those are
stutters. Layers, pruning and choosing keep the two lists of fragments together from where they
stand on, and exploring keeps the two tables of iterations together.
-/

namespace Multipath

open Extract (ofSearch)

/-- What was built, with its positions moved. -/
def relocateTrees (σ : Relocation) (ts : Option (List Tree)) : Option (List Tree) :=
  ts.map (List.map (Tree.relocate σ))

theorem relocateTrees_append (σ : Relocation) (nodes : List Tree) (ts : Option (List Tree)) :
    relocateTrees σ (ts.map (nodes ++ ·)) =
      (relocateTrees σ ts).map (nodes.map (Tree.relocate σ) ++ ·) := by
  cases ts with
  | none => rfl
  | some ts => simp [relocateTrees]

namespace Fragment

/-- The same steps, with their positions moved. -/
structure Steps.Moved (σ : Relocation) (steps steps' : Steps) : Prop where
  listed : ∀ q ∈ steps', ∃ p, σ.move p = q
  next : ∀ p : Position, steps'[σ.move p]? = steps[p]?.map (List.map σ.move)

namespace Steps

variable {σ : Relocation} {steps steps' : Steps} {p stop : Position}

theorem moved_empty : Moved σ ∅ ∅ where
  listed q hq := by simp at hq
  next p := by simp

theorem Moved.insert (h : Moved σ steps steps') (p : Position) (next : List Position) :
    Moved σ (steps.insert p next) (steps'.insert (σ.move p) (next.map σ.move)) where
  listed q hq := by
    obtain rfl | hq := mem_insert.mp hq
    · exact ⟨p, rfl⟩
    · exact h.listed q hq
  next q := by
    simp only [getElem?_insert, Relocation.move_inj]
    split
    · rfl
    · exact h.next q

theorem Moved.contains (h : Moved σ steps steps') (p : Position) :
    steps'.contains (σ.move p) = steps.contains p := by
  rw [Std.TreeMap.contains_eq_isSome_getElem?, Std.TreeMap.contains_eq_isSome_getElem?, h.next,
    Option.isSome_map]

theorem Moved.dropWhile (h : Moved σ steps steps') (pending : List Position) :
    (pending.map σ.move).dropWhile steps'.contains =
      (pending.dropWhile steps.contains).map σ.move := by
  rw [List.dropWhile_map]
  exact congrArg (fun seen => (pending.dropWhile seen).map σ.move) (funext h.contains)

theorem Moved.getD (h : Moved σ steps steps') (p : Position) :
    steps'.getD (σ.move p) [] = (steps.getD p []).map σ.move := by
  rw [Std.TreeMap.getD_eq_getD_getElem?, Std.TreeMap.getD_eq_getD_getElem?, h.next]
  cases steps[p]? <;> rfl

theorem Moved.toList (h : Moved σ steps steps') :
    steps'.toList = steps.toList.map fun entry => (σ.move entry.1, entry.2.map σ.move) := by
  refine List.eq_of_ordered Prod.fst Std.TreeMap.ordered_keys_toList ?_ fun entry => ?_
  · rw [List.pairwise_map]
    simpa only [σ.compare_move] using Std.TreeMap.ordered_keys_toList
  · obtain ⟨q, next⟩ := entry
    simp only [Std.TreeMap.mem_toList_iff_getElem?_eq_some, List.mem_map, Prod.exists,
      Prod.mk.injEq]
    constructor
    · intro hq
      obtain ⟨p, rfl⟩ := h.listed q (Std.TreeMap.mem_iff_isSome_getElem?.mpr (by simp [hq]))
      obtain ⟨next, hp, rfl⟩ := Option.map_eq_some_iff.mp ((h.next p).symm.trans hq)
      exact ⟨p, next, hp, rfl, rfl⟩
    · rintro ⟨p, next, hp, rfl, rfl⟩
      rw [h.next, hp]
      rfl

theorem Moved.size (h : Moved σ steps steps') : steps'.size = steps.size := by
  rw [← Std.TreeMap.length_toList, h.toList, List.length_map, Std.TreeMap.length_toList]

theorem mem_viableIn_moved (entries : List (Position × List Position)) (p : Position) :
    σ.move p ∈ viableIn (σ.move stop)
        (entries.map fun entry => (σ.move entry.1, entry.2.map σ.move)) ↔
      p ∈ viableIn stop entries := by
  induction entries generalizing p with
  | nil => simp [viableIn]
  | cons entry entries ih =>
      have hnext : (∃ m ∈ entry.2.map σ.move, m ∈ viableIn (σ.move stop)
            (entries.map fun entry => (σ.move entry.1, entry.2.map σ.move))) ↔
          ∃ m ∈ entry.2, m ∈ viableIn stop entries := by
        constructor
        · rintro ⟨q, hq, hviable⟩
          obtain ⟨m, hm, rfl⟩ := List.mem_map.mp hq
          exact ⟨m, hm, (ih m).mp hviable⟩
        · rintro ⟨m, hm, hviable⟩
          exact ⟨σ.move m, List.mem_map_of_mem hm, (ih m).mpr hviable⟩
      simp only [List.map_cons, mem_viableIn_cons, ih, Relocation.move_inj, hnext]

theorem Moved.viable_contains (h : Moved σ steps steps') (p : Position) :
    (viable (σ.move stop) steps').contains (σ.move p) = (viable stop steps).contains p := by
  rw [Bool.eq_iff_iff, ← Std.TreeSet.mem_iff_contains, ← Std.TreeSet.mem_iff_contains, viable_eq,
    viable_eq, h.toList, mem_viableIn_moved]

end Steps
end Fragment

namespace Counterpart

variable {s s' : Session} (k : Counterpart s s')

/-- Extractions of the two that are alike, no rule being derived meanwhile. -/
structure Extractions (e e' : Extraction) : Prop where
  run : k.Runs e.run e'.run
  frames : e.run.frames = []
  active : ∀ x : Stretch, x.relocate k.σ ∈ e'.active ↔ x ∈ e.active
  built : ∀ x : Stretch, e'.built[x.relocate k.σ]? = e.built[x]?.map (·.relocate k.σ)

/-- Extractions are alike, and failures the same. -/
def extracting : Comparison Extraction where
  states := k.Extractions
  failures f g := g = f.relocate k.σ
  counts _ := True
  absorbable_eq := k.comparison.absorbable_eq
  counts_of_absorbable _ := trivial

variable {k} {e e' : Extraction}

theorem Extractions.withRun (h : k.Extractions e e') {run run' : Run} (hruns : k.Runs run run')
    (hframes : run.frames = []) : k.Extractions { e with run } { e' with run := run' } :=
  ⟨hruns, hframes, h.active, h.built⟩

theorem Extractions.levels (h : k.Extractions e e') :
    s.maxDepth - e.run.frames.length = s.maxDepth := by
  rw [h.frames]
  rfl

theorem ofSearch_alike {α β : Type} {values : α → β → Prop} {x : Search α} {y : Search β}
    (he : k.Extractions e e') (hx : Keeps Run.Returns x)
    (h : Agrees k.comparison values x y e.run e'.run) :
    Agrees k.extracting values (ofSearch x) (ofSearch y) e e' := by
  refine ensures_ofSearch.mpr (Ensures.mono h fun result' run' hsame _ => ensures_ofSearch.mpr ?_)
  refine ((hsame fun _ _ => trivial).and (hx e.run)).mono fun result run hpost => ?_
  obtain ⟨⟨hruns, halike⟩, hreturns⟩ := hpost
  refine ⟨he.withRun hruns (List.length_eq_zero_iff.mp ?_), halike⟩
  rw [hreturns.height, he.frames, List.length_nil]

/-- A search that only `s'` does. -/
theorem ofSearch_aside {α : Type} {y : Search α} {a : α} (he : k.Extractions e e')
    (h : Ensures y e'.run fun result after' => k.Runs e.run after' ∧ result = .ok a) :
    Ensures (ofSearch y) e' fun result after' => k.Extractions e after' ∧ result = .ok a :=
  ensures_ofSearch.mpr (h.mono fun _ _ hpost => ⟨he.withRun hpost.1 he.frames, hpost.2⟩)

variable (k) in
/-- From positions of some kind, a fragment leads to positions of a kind, and it builds, as its
counterpart does. -/
structure Goes (here there : Position → Prop) (f f' : Fragment) : Prop where
  reach : ∀ {paths : PathSet} {e e' : Extraction} (stop : Position), paths ≠ ∅ →
    (∀ p ∈ paths, here p) → k.Extractions e e' →
    Agrees k.extracting (Moved k.σ fun out => ∀ q ∈ out, there q ∧ q ≤ stop)
      (f.reach paths stop) (f'.reach (paths.relocate k.σ) (k.σ.move stop)) e e'
  build : ∀ {p : Position} {e e' : Extraction} (q : Position), here p → k.Extractions e e' →
    Agrees k.extracting (fun ts ts' => ts' = relocateTrees k.σ ts) (f.build p q)
      (f'.build (k.σ.move p) (k.σ.move q)) e e'

variable (k) in
/-- At positions of some kind, a fragment of `s'` alone stays and builds nothing. -/
structure Idle (here : Position → Prop) (f' : Fragment) : Prop where
  reach : ∀ {paths : PathSet} {stop : Position} {e e' : Extraction},
    (∀ p ∈ paths, here p ∧ p ≤ stop) → k.Extractions e e' →
    Ensures (f'.reach (paths.relocate k.σ) (k.σ.move stop)) e' fun result after' =>
      k.Extractions e after' ∧ result = .ok (paths.relocate k.σ)
  build : ∀ {p : Position} {e e' : Extraction}, here p → k.Extractions e e' →
    Ensures (f'.build (k.σ.move p) (k.σ.move p)) e' fun result after' =>
      k.Extractions e after' ∧ result = .ok (some [])

variable (k) in
/-- Fragments of the two, the ones of `s'` with idle ones in front of others. -/
inductive Fragments : (Position → Prop) → List Fragment → List Fragment → Prop
  | nil {here} : Fragments here [] []
  | cons {here there f f' fs fs'} : k.Goes here there f f' → Fragments there fs fs' →
      Fragments here (f :: fs) (f' :: fs')
  | idle {here f' fs fs'} : k.Idle here f' → fs ≠ [] → Fragments here fs fs' →
      Fragments here fs (f' :: fs')

variable (k) in
/-- Fragments with the paths in front of them. -/
inductive Fronts (stop : Position) : (Position → Prop) → PathSet → List (Fragment × PathSet) →
    List (Fragment × PathSet) → Prop
  | nil {here paths} : Fronts stop here paths [] []
  | cons {here there f f' paths next steps steps'} : k.Goes here there f f' →
      (∀ p ∈ paths, here p) → Fronts stop there next steps steps' →
      Fronts stop here paths ((f, paths) :: steps) ((f', paths.relocate k.σ) :: steps')
  | idle {here f' paths steps steps'} : k.Idle here f' → steps ≠ [] →
      (∀ p ∈ paths, here p ∧ p ≤ stop) → Fronts stop here paths steps steps' →
      Fronts stop here paths steps ((f', paths.relocate k.σ) :: steps')

variable (k) in
/-- Fragments with the viable paths behind them, and those in front of the first one. -/
inductive Behind : (Position → Prop) → PathSet → List (Fragment × PathSet) →
    List (Fragment × PathSet) → Prop
  | nil {here viable} : Behind here viable [] []
  | cons {here there f f' viable after steps steps'} : k.Goes here there f f' →
      Behind there after steps steps' →
      Behind here viable ((f, after) :: steps) ((f', after.relocate k.σ) :: steps')
  | idle {here f' viable steps steps'} : k.Idle here f' → Behind here viable steps steps' →
      Behind here viable steps ((f', viable.relocate k.σ) :: steps')

section Sequences
variable {here there : Position → Prop} {f f' : Fragment} {stop p : Position} {paths : PathSet}

theorem Goes.reach_singleton (h : k.Goes here there f f') (stop : Position) (hp : here p)
    (he : k.Extractions e e') :
    Agrees k.extracting (Moved k.σ fun out => ∀ q ∈ out, there q ∧ q ≤ stop)
      (f.reach {p} stop) (f'.reach {k.σ.move p} (k.σ.move stop)) e e' := by
  rw [← PathSet.relocate_singleton]
  exact h.reach stop (SortedSet.ne_empty_iff.mpr ⟨p, SortedSet.mem_singleton.mpr rfl⟩)
    (fun q hq => SortedSet.mem_singleton.mp hq ▸ hp) he

theorem Goes.firstBuilt (h : k.Goes here there f f') (hp : here p) (stops : List Position)
    (he : k.Extractions e e') :
    Agrees k.extracting (fun found found' =>
        found' = found.map (fun b => (k.σ.move b.1, b.2.map (Tree.relocate k.σ))) ∧
          ∀ b, found = some b → b.1 ∈ stops)
      (f.firstBuilt p stops) (f'.firstBuilt (k.σ.move p) (stops.map k.σ.move)) e e' := by
  induction stops generalizing e e' with
  | nil => exact .pure he ⟨rfl, nofun⟩
  | cons q stops ih =>
      rw [List.map_cons, Fragment.firstBuilt, Fragment.firstBuilt]
      refine (h.build q hp he).bind fun ts _ after after' he heq => ?_
      subst heq
      cases ts with
      | some nodes => exact .pure he ⟨rfl, fun b hb => by cases hb; exact List.mem_cons_self⟩
      | none =>
          exact (ih he).mono fun found found' hfound =>
            ⟨hfound.1, fun b hb => List.mem_cons_of_mem _ (hfound.2 b hb)⟩

theorem layers_alike {fs fs' : List Fragment} (h : k.Fragments here fs fs') (hne : paths ≠ ∅)
    (hpaths : ∀ p ∈ paths, here p ∧ p ≤ stop) (he : k.Extractions e e') :
    Agrees k.extracting (Option.Rel fun steps steps' =>
        k.Fronts stop here paths steps steps' ∧ (fs ≠ [] → steps ≠ []))
      (Fragment.layers stop fs paths)
      (Fragment.layers (k.σ.move stop) fs' (paths.relocate k.σ)) e e' := by
  induction h generalizing paths e e' with
  | nil => exact .pure he (.some ⟨.nil, fun hnil => absurd rfl hnil⟩)
  | cons hgoes _ ih =>
      rw [Fragment.layers, Fragment.layers]
      refine (hgoes.reach stop hne (fun p hp => (hpaths p hp).1) he).bind
        fun next _ after after' he hmoved => ?_
      obtain ⟨rfl, hnext⟩ := hmoved
      rw [PathSet.isEmpty_relocate]
      split
      · exact .pure he .none
      · next hfull =>
          refine (ih (fun hnil => hfull (by simp [hnil])) hnext he).bind
            fun rest rest' after after' he hrest => .pure he ?_
          cases hrest with
          | none => exact .none
          | some hsteps =>
              exact .some ⟨.cons hgoes (fun p hp => (hpaths p hp).1) hsteps.1,
                fun _ => List.cons_ne_nil _ _⟩
  | @idle here f' fs fs' hidle hfs _ ih =>
      rw [Fragment.layers]
      refine Agrees.aside (hidle.reach hpaths he) fun after' he => ?_
      have hfull : ¬(paths.relocate k.σ).isEmpty = true := by
        simpa using hne
      rw [if_neg hfull, ← bind_pure (Fragment.layers stop fs paths)]
      refine (ih hne hpaths he).bind fun rest rest' after after' he hrest => .pure he ?_
      cases hrest with
      | none => exact .none
      | some hsteps => exact .some ⟨.idle hidle (hsteps.2 hfs) hpaths hsteps.1, hsteps.2⟩

theorem Goes.keepViable (h : k.Goes here there f f') (after : PathSet) {layer : PathSet}
    (hlayer : ∀ p ∈ layer, here p) (he : k.Extractions e e') :
    Agrees k.extracting (Moved k.σ fun keep => ∀ p ∈ keep, p ∈ layer)
      (f.keepViable stop after layer)
      (f'.keepViable (k.σ.move stop) (after.relocate k.σ) (layer.relocate k.σ)) e e' := by
  unfold Fragment.keepViable
  rw [PathSet.toList_relocate]
  refine Agrees.foldlM k.σ.move layer.toList (fun p hp keep _ e e' he hmoved => ?_)
    ⟨PathSet.relocate_empty.symm, by simp⟩ he
  obtain ⟨rfl, hkeep⟩ := hmoved
  have hp := Std.ExtTreeSet.mem_toList.mp hp
  refine (h.reach_singleton stop (hlayer p hp) he).bind fun stops _ _ _ he hmoved => ?_
  obtain ⟨rfl, -⟩ := hmoved
  refine .pure he ?_
  have hany : (stops.relocate k.σ).toList.any (· ∈ after.relocate k.σ) =
      stops.toList.any (· ∈ after) := by
    rw [PathSet.toList_relocate, List.any_map]
    simp only [Function.comp_def, PathSet.move_mem_relocate]
  rw [hany]
  split
  · refine ⟨PathSet.relocate_insert.symm, fun q hq => ?_⟩
    obtain rfl | hq := SortedSet.mem_insert.mp hq
    · exact hp
    · exact hkeep q hq
  · exact ⟨rfl, hkeep⟩

/-- An idle fragment matches nothing where it is taken to end at once. -/
theorem Idle.firstBuilt (h : k.Idle here f') {p : Position} (hp : here p)
    (he : k.Extractions e e') :
    Ensures (f'.firstBuilt (k.σ.move p) [k.σ.move p]) e' fun result after' =>
      k.Extractions e after' ∧ result = .ok (some (k.σ.move p, [])) := by
  rw [Fragment.firstBuilt]
  refine ensures_bind.mpr ((h.build hp he).mono fun result after' hpost => ?_)
  obtain ⟨he, rfl⟩ := hpost
  exact ensures_pure.mpr ⟨he, rfl⟩

/-- An idle fragment leads to just those of the paths behind it that are in front of it. -/
theorem Idle.keepViable (h : k.Idle here f') {after layer : PathSet}
    (hlayer : ∀ p ∈ layer, here p ∧ p ≤ stop) (hafter : ∀ p ∈ after, p ∈ layer)
    (he : k.Extractions e e') :
    Ensures (f'.keepViable (k.σ.move stop) (after.relocate k.σ) (layer.relocate k.σ)) e'
      fun result after' => k.Extractions e after' ∧ result = .ok (after.relocate k.σ) := by
  have hfold (ps : List Position) (hps : ∀ p ∈ ps, p ∈ layer) (keep : PathSet) (e' : Extraction)
      (he : k.Extractions e e') : Ensures
        ((ps.map k.σ.move).foldlM (fun keep p => do
          let stops ← f'.reach {p} (k.σ.move stop)
          pure (if stops.toList.any (· ∈ after.relocate k.σ) then keep.insert p else keep))
          (keep.relocate k.σ)) e'
        fun result after' => k.Extractions e after' ∧ ∃ keep' : PathSet,
          result = .ok (keep'.relocate k.σ) ∧
            ∀ q, q ∈ keep' ↔ q ∈ keep ∨ q ∈ ps ∧ q ∈ after := by
    induction ps generalizing keep e' with
    | nil => exact ensures_pure.mpr ⟨he, keep, rfl, by simp⟩
    | cons p ps ih =>
        have hp := hlayer p (hps p (by simp))
        have hpaths : ∀ q ∈ ({p} : PathSet), here q ∧ q ≤ stop := by simpa using hp
        rw [List.map_cons, List.foldlM_cons, ← PathSet.relocate_singleton]
        refine ensures_bind.mpr (ensures_bind.mpr ((h.reach hpaths he).mono
          fun result after' hpost => ?_))
        obtain ⟨he, rfl⟩ := hpost
        have hany : (PathSet.relocate k.σ {p}).toList.any (· ∈ after.relocate k.σ) =
            decide (p ∈ after) := by
          rw [PathSet.toList_relocate, toList_singleton]
          simp
        refine ensures_pure.mpr ?_
        dsimp only
        rw [hany]
        by_cases hmem : p ∈ after
        · rw [if_pos (by simpa using hmem), ← PathSet.relocate_insert]
          refine (ih (fun q hq => hps q (by simp [hq])) _ _ he).mono fun _ _ hpost => ?_
          obtain ⟨he, keep', hkeep, hiff⟩ := hpost
          refine ⟨he, keep', hkeep, fun q => ?_⟩
          rw [hiff, SortedSet.mem_insert, List.mem_cons, or_and_right, or_assoc, or_left_comm]
          refine or_congr_right (or_congr_left ?_)
          exact ⟨fun hq => ⟨hq, hq ▸ hmem⟩, And.left⟩
        · rw [if_neg (by simpa using hmem)]
          refine (ih (fun q hq => hps q (by simp [hq])) _ _ he).mono fun _ _ hpost => ?_
          obtain ⟨he, keep', hkeep, hiff⟩ := hpost
          refine ⟨he, keep', hkeep, fun q => ?_⟩
          rw [hiff, List.mem_cons, or_and_right]
          refine or_congr_right ⟨.inr, fun hq => hq.resolve_left fun hq => hmem (hq.1 ▸ hq.2)⟩
  have hall := hfold layer.toList (fun _ => Std.ExtTreeSet.mem_toList.mp) ∅ e' he
  rw [← PathSet.toList_relocate, PathSet.relocate_empty] at hall
  refine hall.mono fun result after' hpost => ?_
  obtain ⟨he, keep, rfl, hiff⟩ := hpost
  refine ⟨he, congrArg (fun paths => Except.ok (PathSet.relocate k.σ paths)) ?_⟩
  refine Std.ExtTreeSet.ext_mem fun q => (hiff q).trans ?_
  exact ⟨fun hq => (hq.resolve_left Std.ExtTreeSet.not_mem_empty).2, fun hq =>
    .inr ⟨Std.ExtTreeSet.mem_toList.mpr (hafter q hq), hq⟩⟩

theorem prune_alike {steps steps' : List (Fragment × PathSet)}
    (h : k.Fronts stop here paths steps steps') (he : k.Extractions e e') :
    Agrees k.extracting (fun found found' => found'.1 = found.1.relocate k.σ ∧
        (steps ≠ [] → ∀ p ∈ found.1, p ∈ paths) ∧ k.Behind here found.1 found.2 found'.2)
      (Fragment.prune stop steps) (Fragment.prune (k.σ.move stop) steps') e e' := by
  induction h generalizing e e' with
  | nil => exact .pure he ⟨PathSet.relocate_singleton.symm, fun hnil => absurd rfl hnil, .nil⟩
  | cons hgoes hpaths _ ih =>
      rw [Fragment.prune, Fragment.prune]
      refine (ih he).bind fun found found' _ _ he hfound => ?_
      obtain ⟨after, steps⟩ := found
      obtain ⟨after', steps'⟩ := found'
      obtain ⟨rfl, -, hsteps⟩ := hfound
      refine (hgoes.keepViable after hpaths he).bind fun keep _ _ _ he hmoved => ?_
      exact .pure he ⟨hmoved.1, fun _ => hmoved.2, .cons hgoes hsteps⟩
  | @idle here f' paths steps steps' hidle hsteps hpaths _ ih =>
      rw [Fragment.prune, ← bind_pure (Fragment.prune stop steps)]
      refine (ih he).bind fun found found' _ _ he hfound => ?_
      obtain ⟨after, rest⟩ := found
      obtain ⟨after', rest'⟩ := found'
      obtain ⟨rfl, hafter, hrest⟩ := hfound
      refine Agrees.aside (hidle.keepViable hpaths (hafter hsteps) he) fun _ he => ?_
      exact .pure he ⟨rfl, hafter, .idle hidle hrest⟩

theorem choose_alike {viable : PathSet} {steps steps' : List (Fragment × PathSet)}
    (h : k.Behind here viable steps steps') (hp : here p) (hle : p ≤ stop) (hviable : p ∈ viable)
    (he : k.Extractions e e') :
    Agrees k.extracting (fun ts ts' => ts' = relocateTrees k.σ ts) (Fragment.choose stop steps p)
      (Fragment.choose (k.σ.move stop) steps' (k.σ.move p)) e e' := by
  induction h generalizing p e e' with
  | nil => exact .pure he rfl
  | @cons here there f f' viable after steps steps' hgoes _ ih =>
      rw [Fragment.choose, Fragment.choose]
      refine (hgoes.reach_singleton stop hp he).bind fun stops _ _ _ he hmoved => ?_
      obtain ⟨rfl, hstops⟩ := hmoved
      have hcandidates : (stops.relocate k.σ).toList.reverse.filter (· ∈ after.relocate k.σ) =
          (stops.toList.reverse.filter (· ∈ after)).map k.σ.move := by
        rw [PathSet.toList_relocate, ← List.map_reverse, List.filter_map]
        simp only [Function.comp_def, PathSet.move_mem_relocate]
      rw [hcandidates]
      refine (hgoes.firstBuilt hp _ he).bind fun found _ _ _ he hfound => ?_
      obtain ⟨rfl, hmem⟩ := hfound
      cases found with
      | none => exact .pure he rfl
      | some b =>
          obtain ⟨hq, hafter⟩ := List.mem_filter.mp (hmem b rfl)
          rw [List.mem_reverse, Std.ExtTreeSet.mem_toList] at hq
          refine (ih (hstops _ hq).1 (hstops _ hq).2 (by simpa using hafter) he).bind
            fun ts _ _ _ he heq => .pure he ?_
          rw [heq, relocateTrees_append]
  | @idle here f' viable steps steps' hidle _ ih =>
      rw [Fragment.choose, ← PathSet.relocate_singleton]
      refine Agrees.aside (hidle.reach (by simpa using ⟨hp, hle⟩) he) fun _ he => ?_
      have hcandidates : (PathSet.relocate k.σ {p}).toList.reverse.filter
          (· ∈ viable.relocate k.σ) = [k.σ.move p] := by
        rw [PathSet.toList_relocate, toList_singleton]
        simp [hviable]
      rw [hcandidates]
      refine Agrees.aside (hidle.firstBuilt hp he) fun _ he => ?_
      rw [← bind_pure (Fragment.choose stop steps p)]
      refine (ih hp hle hviable he).bind fun ts ts' _ _ he heq => .pure he ?_
      rw [← heq]
      cases ts' <;> rfl

/-- A sequence is extracted as its counterpart. -/
theorem inSequence_alike {fs fs' : List Fragment} (h : k.Fragments here fs fs') (hp : here p)
    (hle : p ≤ stop) (he : k.Extractions e e') :
    Agrees k.extracting (fun ts ts' => ts' = relocateTrees k.σ ts)
      (Fragment.inSequence fs p stop)
      (Fragment.inSequence fs' (k.σ.move p) (k.σ.move stop)) e e' := by
  unfold Fragment.inSequence
  rw [← PathSet.relocate_singleton]
  refine (layers_alike h (SortedSet.ne_empty_iff.mpr ⟨p, SortedSet.mem_singleton.mpr rfl⟩)
    (by simpa using ⟨hp, hle⟩) he).bind fun before before' _ _ he hbefore => ?_
  cases hbefore with
  | none => exact .pure he rfl
  | some hsteps =>
      refine (prune_alike hsteps.1 he).bind fun found found' _ _ he hfound => ?_
      obtain ⟨viable, steps⟩ := found
      obtain ⟨viable', steps'⟩ := found'
      obtain ⟨rfl, -, hsteps⟩ := hfound
      simp only [PathSet.move_mem_relocate]
      split
      · next hviable => exact choose_alike hsteps hp hle hviable he
      · exact .pure he rfl

end Sequences

section Repetitions
open Fragment (Steps viable)

variable {here : Position → Prop} {f f' : Fragment} {stop p : Position} {steps steps' : Steps}

/-- All that is listed, and where it leads, is of some kind. -/
def Listed (here : Position → Prop) (steps : Steps) : Prop :=
  ∀ (p : Position) next, steps[p]? = some next → here p ∧ ∀ q ∈ next, here q

theorem Listed.insert (h : Listed here steps) (hp : here p) {next : List Position}
    (hnext : ∀ q ∈ next, here q) : Listed here (steps.insert p next) := by
  intro q next' hq
  rw [Steps.getElem?_insert] at hq
  split at hq
  · next heq =>
      cases hq
      rw [heq]
      exact ⟨hp, hnext⟩
  · exact h q next' hq

theorem listed_empty : Listed here ∅ := by
  intro p next hp
  simp at hp

theorem Listed.of_getD (h : Listed here steps) {q : Position} (hq : q ∈ steps.getD p []) :
    here q := by
  rw [Std.TreeMap.getD_eq_getD_getElem?] at hq
  cases hp : steps[p]? with
  | none => simp [hp] at hq
  | some next => exact (h p next hp).2 q (by simpa [hp] using hq)

/-- A place that is not listed yet leaves room for it. -/
theorem Listed.size_le (h : Listed here steps) (hplace : ∀ p, here p → s.source.IsPlace p)
    (hp : here p) (hnew : steps.contains p = false) : steps.size ≤ s.source.length := by
  have hnodup : (p :: steps.keys).Nodup := by
    refine List.nodup_cons.mpr ⟨fun hmem => ?_, Std.TreeMap.nodup_keys⟩
    cases hnew.symm.trans (Std.TreeMap.mem_iff_contains.mp (Std.TreeMap.mem_keys.mp hmem))
  have hplaces : ∀ q ∈ p :: steps.keys, s.source.IsPlace q := by
    intro q hq
    obtain rfl | hq := List.mem_cons.mp hq
    · exact hplace q hp
    · have hq := Std.TreeMap.mem_iff_isSome_getElem?.mp (Std.TreeMap.mem_keys.mp hq)
      obtain ⟨next, hnext⟩ := Option.isSome_iff_exists.mp hq
      exact hplace q (h q next hnext).1
  have hle := Source.length_le_of_places hnodup hplaces
  rw [List.length_cons, Std.TreeMap.length_keys] at hle
  omega

theorem explore_of_seen {pending : List Position}
    (h : pending.dropWhile steps.contains = []) (n : Nat) :
    f.explore stop n pending steps = pure steps := by
  cases n with
  | zero => rfl
  | succ n => rw [Fragment.explore, h]

/-- Exploring goes alike, with bounds that the places of the text do not use up. -/
theorem Goes.explore (h : k.Goes here here f f') (hplace : ∀ p, here p → s.source.IsPlace p)
    (n m : Nat) (pending : List Position) (hpending : ∀ p ∈ pending, here p)
    (hlisted : Listed here steps) (hmoved : Steps.Moved k.σ steps steps')
    (hn : s.source.length + 1 ≤ steps.size + n) (hm : s.source.length + 1 ≤ steps.size + m)
    (he : k.Extractions e e') :
    Agrees k.extracting (fun found found' => Steps.Moved k.σ found found' ∧ Listed here found)
      (f.explore stop n pending steps)
      (f'.explore (k.σ.move stop) m (pending.map k.σ.move) steps') e e' := by
  induction n generalizing m pending steps steps' e e' with
  | zero =>
      obtain ⟨hseen, -⟩ | ⟨front, p, rest, rfl, -, hnew, -⟩ :=
        dropWhile_cases steps.contains pending
      · rw [explore_of_seen hseen, explore_of_seen (by rw [hmoved.dropWhile, hseen]; rfl)]
        exact .pure he ⟨hmoved, hlisted⟩
      · have := hlisted.size_le hplace (hpending p (by simp)) hnew
        omega
  | succ n ih =>
      obtain ⟨hseen, -⟩ | ⟨front, p, rest, rfl, hdrop, hnew, -⟩ :=
        dropWhile_cases steps.contains pending
      · rw [explore_of_seen hseen, explore_of_seen (by rw [hmoved.dropWhile, hseen]; rfl)]
        exact .pure he ⟨hmoved, hlisted⟩
      · have hp : here p := hpending p (by simp)
        have hroom := hlisted.size_le hplace hp hnew
        obtain ⟨m, rfl⟩ : ∃ m', m = m' + 1 := ⟨m - 1, by omega⟩
        rw [Fragment.explore, Fragment.explore, hmoved.dropWhile, hdrop]
        refine (h.reach_singleton stop hp he).bind fun stops _ _ _ he hstops => ?_
        obtain ⟨rfl, hstops⟩ := hstops
        have hnext : (stops.relocate k.σ).toList.filter (k.σ.move p < ·) =
            (stops.toList.filter (p < ·)).map k.σ.move := by
          rw [PathSet.toList_relocate, List.filter_map]
          simp only [Function.comp_def, Relocation.move_lt]
        have hthere : ∀ q ∈ stops.toList.filter (p < ·), here q := fun q hq =>
          (hstops q (Std.ExtTreeSet.mem_toList.mp (List.mem_filter.mp hq).1)).1
        have hsize : (steps.insert p (stops.toList.filter (p < ·))).size = steps.size + 1 := by
          rw [Std.TreeMap.size_insert, if_neg (by simp [hnew])]
        dsimp only [List.map_cons]
        rw [hnext, ← List.map_reverse, ← List.map_append]
        refine ih m _ (fun q hq => ?_) (hlisted.insert hp hthere) (hmoved.insert p _)
          (by omega) (by omega) he
        obtain hq | hq := List.mem_append.mp hq
        · exact hthere q (List.mem_reverse.mp hq)
        · exact hpending q (by simp [hq])

theorem Goes.iterate (h : k.Goes here here f f') (hlisted : Listed here steps)
    (hmoved : Steps.Moved k.σ steps steps') (n : Nat) (hp : here p) (he : k.Extractions e e') :
    Agrees k.extracting (fun ts ts' => ts' = relocateTrees k.σ ts)
      (f.iterate stop steps (viable stop steps) n p)
      (f'.iterate (k.σ.move stop) steps' (viable (k.σ.move stop) steps') n (k.σ.move p)) e e' := by
  induction n generalizing p e e' with
  | zero =>
      rw [Fragment.iterate, Fragment.iterate]
      simp only [Relocation.move_inj]
      refine .pure he ?_
      split <;> rfl
  | succ n ih =>
      rw [Fragment.iterate, Fragment.iterate]
      simp only [Relocation.move_inj]
      split
      · exact .pure he rfl
      · have hcandidates : (steps'.getD (k.σ.move p) []).reverse.filter
            (viable (k.σ.move stop) steps').contains =
              ((steps.getD p []).reverse.filter (viable stop steps).contains).map k.σ.move := by
          rw [hmoved.getD, ← List.map_reverse, List.filter_map]
          exact congrArg (fun keep => (((steps.getD p []).reverse.filter keep).map k.σ.move))
            (funext fun q => hmoved.viable_contains q)
        rw [hcandidates]
        refine (h.firstBuilt hp _ he).bind fun found _ _ _ he hfound => ?_
        obtain ⟨rfl, hmem⟩ := hfound
        cases found with
        | none => exact .pure he rfl
        | some b =>
            have hq := List.mem_reverse.mp (List.mem_filter.mp (hmem b rfl)).1
            refine (ih (hlisted.of_getD hq) he).bind fun ts _ _ _ he heq => .pure he ?_
            rw [heq, relocateTrees_append]

/-- A repetition is extracted as its counterpart. -/
theorem Goes.inRepetition (h : k.Goes here here f f') (hplace : ∀ p, here p → s.source.IsPlace p)
    {n m : Nat} (hn : s.source.length + 1 ≤ n) (hm : s.source.length + 1 ≤ m) (hp : here p)
    (he : k.Extractions e e') :
    Agrees k.extracting (fun ts ts' => ts' = relocateTrees k.σ ts) (f.inRepetition n p stop)
      (f'.inRepetition m (k.σ.move p) (k.σ.move stop)) e e' := by
  unfold Fragment.inRepetition
  simp only [Relocation.move_inj]
  split
  · exact .pure he rfl
  · refine (h.explore hplace n m [p] (by simpa using hp) listed_empty Steps.moved_empty (by omega)
      (by omega) he).bind fun steps steps' _ _ he hsteps => ?_
    obtain ⟨hmoved, hlisted⟩ := hsteps
    simp only [Std.TreeSet.mem_iff_contains, hmoved.viable_contains, hmoved.size]
    split
    · exact h.iterate hlisted hmoved _ hp he
    · exact .pure he rfl

end Repetitions
end Counterpart
end Multipath
