import Multipath.Proofs.PathBound

/-!
Two searches side by side. `Search.Mirrors` says that a search ends as another one does, unless that
one is cut off by the bound on nesting, and that their runs stay related. Every combinator of the
evaluator keeps this, whatever the relation, provided that reading and noting failures do; so two
evaluations agree as soon as their resolvers agree. The two may repeat parts under different bounds:
on the places of a text neither bound is ever reached.
-/

namespace Multipath

open Search (attempt noPath readToken)

/-- Whatever a search ended in, it was not the bound on nesting. -/
def Uncut {α : Type} (result : Except Failure α) : Prop :=
  ∀ f, result = .error f → f.isAbsorbable = true

theorem uncut_ok {α : Type} (a : α) : Uncut (Except.ok a) := nofun

theorem uncut_error {α : Type} {f : Failure} (hf : f.isAbsorbable = true) :
    Uncut (Except.error f : Except Failure α) := by
  intro f' heq
  cases heq
  exact hf

/-- Unless `y` is cut off, `x` ends like it, with related runs and something good. -/
def Search.Mirrors {α : Type} (rel : Run → Run → Prop) (good : α → Prop) (x y : Search α)
    (run run' : Run) : Prop :=
  Ensures y run' fun result after' => Uncut result →
    Ensures x run fun result' after =>
      result' = result ∧ rel after after' ∧ ∀ a, result = .ok a → good a

namespace Search.Mirrors

variable {α β : Type} {rel : Run → Run → Prop} {run run' : Run}

theorem pure {good : α → Prop} {a : α} (hrel : rel run run') (ha : good a) :
    Mirrors rel good (Pure.pure a) (Pure.pure a) run run' := by
  refine ensures_pure.mpr fun _ => ensures_pure.mpr ⟨rfl, hrel, fun b hb => ?_⟩
  exact Except.ok.inj hb ▸ ha

theorem throw {good : α → Prop} {f : Failure} (hrel : rel run run') :
    Mirrors rel good (MonadExcept.throw f) (MonadExcept.throw f) run run' :=
  ensures_throw.mpr fun _ => ensures_throw.mpr ⟨rfl, hrel, nofun⟩

theorem bind {x y : Search α} {f g : α → Search β} {middle : α → Prop} {good : β → Prop}
    (h : Mirrors rel middle x y run run')
    (hf : ∀ a after after', rel after after' → middle a →
      Mirrors rel good (f a) (g a) after after') :
    Mirrors rel good (x >>= f) (y >>= g) run run' := by
  refine ensures_bind.mpr (Ensures.mono h ?_)
  intro result after' hx
  rcases hrun : x.run.run run with ⟨result', after⟩
  cases result with
  | error e =>
      intro hu
      obtain ⟨rfl, hrel, -⟩ := (hx (uncut_error (hu e rfl))).of_run hrun
      exact ensures_bind.mpr (Ensures.of_eq hrun ⟨rfl, hrel, nofun⟩)
  | ok a =>
      obtain ⟨rfl, hrel, hmiddle⟩ := (hx (uncut_ok a)).of_run hrun
      refine Ensures.mono (hf a after after' hrel (hmiddle a rfl)) fun result last' hlast hu => ?_
      exact ensures_bind.mpr (Ensures.of_eq hrun (hlast hu))

/-- A failure that is borne by the one is borne by the other. -/
theorem attempt {x y : Search α} {good : α → Prop} (h : Mirrors rel good x y run run') :
    Mirrors rel (fun result => ∀ a, result = .ok a → good a) (attempt x) (attempt y) run run' := by
  refine ensures_attempt.mpr (Ensures.mono h ?_)
  intro result after' hx
  rcases hrun : x.run.run run with ⟨result', after⟩
  cases result with
  | ok a =>
      intro _
      obtain ⟨rfl, hrel, hgood⟩ := (hx (uncut_ok a)).of_run hrun
      refine ensures_attempt.mpr (Ensures.of_eq hrun ⟨rfl, hrel, fun r hr => ?_⟩)
      cases hr
      exact hgood
  | error f =>
      dsimp only
      split
      · next hf =>
          intro _
          obtain ⟨rfl, hrel, -⟩ := (hx (uncut_error hf)).of_run hrun
          refine ensures_attempt.mpr (Ensures.of_eq hrun ?_)
          dsimp only
          rw [if_pos hf]
          exact ⟨rfl, hrel, fun r hr => by cases hr; nofun⟩
      · next hf => exact fun hu => absurd (hu f rfl) hf

end Search.Mirrors

/-- Reading at places and noting failures keep two runs related, which derive the same rule. -/
structure Session.Couples (s : Session) (rel : Run → Run → Prop) : Prop where
  rules : ∀ {run run' : Run}, rel run run' →
    run.frames.head?.map (·.rule) = run'.frames.head?.map (·.rule)
  notes : ∀ {run run' : Run} (p : Position), rel run run' →
    rel (run.noteFailure p) (run'.noteFailure p)
  reads : ∀ {run run' : Run} {p : Position}, rel run run' → s.source.IsPlace p →
    Search.Mirrors rel (· = s.source.token p) (readToken s.source p) (readToken s.source p)
      run run'

/-- Some places of the text. -/
def Source.Placed (src : Source) (paths : PathSet) : Prop :=
  paths ≠ ∅ ∧ ∀ p ∈ paths, src.IsPlace p

namespace Source

variable {src : Source} {p : Position} {paths paths' : PathSet}

theorem placed_singleton (hp : src.IsPlace p) : src.Placed {p} :=
  ⟨SortedSet.ne_empty_iff.mpr ⟨p, SortedSet.mem_singleton.mpr rfl⟩,
    fun _ hq => SortedSet.mem_singleton.mp hq ▸ hp⟩

theorem Placed.union (h : src.Placed paths) (h' : ∀ p ∈ paths', src.IsPlace p) :
    src.Placed (paths ∪ paths') := by
  obtain ⟨p, hp⟩ := SortedSet.ne_empty_iff.mp h.1
  refine ⟨SortedSet.ne_empty_iff.mpr ⟨p, Std.ExtTreeSet.mem_union_of_left hp⟩, fun q hq => ?_⟩
  exact (Std.ExtTreeSet.mem_union_iff.mp hq).elim (h.2 q) (h' q)

/-- A text has one place more than characters. -/
theorem length_le_of_places {ps : List Position} (hnodup : ps.Nodup)
    (h : ∀ p ∈ ps, src.IsPlace p) : ps.length ≤ src.length + 1 := by
  have hindices : (ps.map Position.index).Nodup := by
    refine List.pairwise_map.mpr (hnodup.imp_of_mem fun hp hq hne heq => hne ?_)
    exact (h _ hp).eq_of_index (h _ hq) heq
  have hsub : ps.map Position.index ⊆ List.range (src.length + 1) := by
    intro i hi
    obtain ⟨p, hp, rfl⟩ := List.mem_map.mp hi
    have := (h p hp).index_le
    simp
    omega
  have hle := hindices.length_le_of_subset hsub
  simpa using hle

theorem size_le_of_places (h : ∀ p ∈ paths, src.IsPlace p) : paths.size ≤ src.length + 1 := by
  rw [← Std.ExtTreeSet.length_toList]
  exact length_le_of_places paths.nodup_toList fun p hp => h p (Std.ExtTreeSet.mem_toList.mp hp)

end Source

namespace Session

open Search (Mirrors)

variable {s : Session} {rel : Run → Run → Prop}

theorem Couples.noPath (hc : s.Couples rel) {run run' : Run} (hrel : rel run run')
    {α : Type} {good : α → Prop} (input : PathSet) :
    Mirrors rel good (noPath input) (noPath input) run run' := by
  refine Search.ensures_noPath.mpr fun _ => Search.ensures_noPath.mpr ⟨?_, hrel, nofun⟩
  rw [hc.rules hrel]

theorem Couples.noteFailure (hc : s.Couples rel) {run run' : Run} (hrel : rel run run')
    (p : Position) : Mirrors rel (fun _ => True) (modify (·.noteFailure p) : Search Unit)
      (modify (·.noteFailure p)) run run' :=
  ensures_modify.mpr fun _ => ensures_modify.mpr ⟨rfl, hc.notes p hrel, fun _ _ => trivial⟩

theorem advance_mirrors (hc : s.Couples rel) (tag : TagId) {output : PathSet} {p : Position}
    (hp : s.source.IsPlace p) (houtput : ∀ q ∈ output, s.source.IsPlace q) {run run' : Run}
    (hrel : rel run run') :
    Mirrors rel (fun out => ∀ q ∈ out, s.source.IsPlace q) (s.advance tag output p)
      (s.advance tag output p) run run' := by
  apply (hc.reads hrel hp).bind
  rintro _ after after' hrel rfl
  cases htoken : s.source.token p with
  | ok t =>
      dsimp only
      split
      · refine .pure hrel fun q hq => ?_
        obtain rfl | hq := SortedSet.mem_insert.mp hq
        · exact hp.of_token htoken
        · exact houtput q hq
      · exact (hc.noteFailure hrel _).bind fun _ _ _ hrel _ => .pure hrel houtput
  | error e => exact (hc.noteFailure hrel _).bind fun _ _ _ hrel _ => .pure hrel houtput

theorem advanceAll_mirrors (hc : s.Couples rel) (tag : TagId) (ps : List Position)
    (output : PathSet) (hps : ∀ p ∈ ps, s.source.IsPlace p)
    (houtput : ∀ q ∈ output, s.source.IsPlace q) (run run' : Run) (hrel : rel run run') :
    Mirrors rel (fun out => ∀ q ∈ out, s.source.IsPlace q) (ps.foldlM (s.advance tag) output)
      (ps.foldlM (s.advance tag) output) run run' := by
  induction ps generalizing output run run' with
  | nil => exact .pure hrel houtput
  | cons p ps ih =>
      simp only [List.foldlM_cons]
      apply (advance_mirrors hc tag (hps p (by simp)) houtput hrel).bind
      intro out after after' hrel hout
      exact ih out (fun q hq => hps q (by simp [hq])) hout after after' hrel

theorem terminal_mirrors (hc : s.Couples rel) (tag : TagId) {input : PathSet}
    (hinput : ∀ p ∈ input, s.source.IsPlace p) {run run' : Run} (hrel : rel run run') :
    Mirrors rel s.source.Placed (s.terminal tag input) (s.terminal tag input) run run' := by
  apply (advanceAll_mirrors hc tag input.toList ∅ (by simpa using hinput) (by simp) run run'
    hrel).bind
  intro out after after' hrel hout
  split
  · exact hc.noPath hrel input
  · next hne =>
      exact .pure hrel ⟨fun heq => hne (by rw [heq]; exact Std.ExtTreeSet.isEmpty_empty), hout⟩

theorem unite_mirrors (hc : s.Couples rel) {ι : Type} (input : PathSet) (f g : ι → Search PathSet)
    (is : List ι) (hfg : ∀ i ∈ is, ∀ run run', rel run run' →
      Mirrors rel s.source.Placed (f i) (g i) run run')
    (output : PathSet) (houtput : ∀ q ∈ output, s.source.IsPlace q) (cause : Option Failure)
    (run run' : Run) (hrel : rel run run') :
    Mirrors rel s.source.Placed (unite input (is.map f) output cause)
      (unite input (is.map g) output cause) run run' := by
  induction is generalizing output cause run run' with
  | nil =>
      simp only [List.map_nil, unite]
      split
      · split
        · exact .throw hrel
        · exact hc.noPath hrel input
      · next hne =>
          exact .pure hrel
            ⟨fun heq => hne (by rw [heq]; exact Std.ExtTreeSet.isEmpty_empty), houtput⟩
  | cons i is ih =>
      have ih := ih fun j hj => hfg j (by simp [hj])
      simp only [List.map_cons, unite]
      apply (hfg i (by simp) run run' hrel).attempt.bind
      intro result after after' hrel hresult
      cases result with
      | ok paths =>
          have hunion : ∀ q ∈ output ∪ paths, s.source.IsPlace q := fun q hq =>
            (Std.ExtTreeSet.mem_union_iff.mp hq).elim (houtput q) ((hresult paths rfl).2 q)
          exact ih _ hunion cause after after' hrel
      | error e => exact ih output houtput (some e) after after' hrel

/-- Each round adds a place, so neither side uses up its rounds. -/
theorem saturate_mirrors (body body' : PathSet → Search PathSet)
    (hbody : ∀ input, s.source.Placed input → ∀ run run', rel run run' →
      Mirrors rel s.source.Placed (body input) (body' input) run run')
    (n m : Nat) (frontier result : PathSet) (hfrontier : s.source.Placed frontier)
    (hresult : s.source.Placed result) (hn : s.source.length + 1 < n + result.size)
    (hm : s.source.length + 1 < m + result.size) (run run' : Run) (hrel : rel run run') :
    Mirrors rel s.source.Placed (saturate body n frontier result)
      (saturate body' m frontier result) run run' := by
  have hsize := Source.size_le_of_places hresult.2
  induction n generalizing m frontier result run run' with
  | zero => omega
  | succ n ih =>
      cases m with
      | zero => omega
      | succ m =>
          rw [saturate, saturate]
          apply (hbody frontier hfrontier run run' hrel).attempt.bind
          intro found after after' hrel hfound
          cases found with
          | error e => exact .pure hrel hresult
          | ok output =>
              dsimp only
              split
              · exact .pure hrel hresult
              · next hne =>
                  have hgain := SortedSet.size_lt_size_union_diff hne
                  have hfresh : ∀ q ∈ output \ result, s.source.IsPlace q := fun q hq =>
                    (hfound output rfl).2 q (Std.ExtTreeSet.mem_diff_iff.mp hq).1
                  have hresult' := hresult.union hfresh
                  refine ih m _ _ ⟨fun heq => hne ?_, hfresh⟩ hresult' (by omega) (by omega)
                    after after' hrel (Source.size_le_of_places hresult'.2)
                  rw [heq]
                  exact Std.ExtTreeSet.isEmpty_empty

theorem length_lt_pathBound {input : PathSet} (hinput : input ≠ ∅) (run : Run) :
    s.source.length + 1 < s.pathBound run + input.size := by
  have hpos : input.size ≠ 0 := fun hzero =>
    hinput (Std.ExtTreeSet.eq_empty_iff_size_eq_zero.mpr hzero)
  unfold pathBound
  omega

/-- References are answered alike at every place. -/
def ResolveAlike (s : Session) (rel : Run → Run → Prop) (resolve resolve' : Resolver) : Prop :=
  ∀ rule p run run', s.source.IsPlace p → rel run run' →
    Mirrors rel s.source.Placed (resolve rule p) (resolve' rule p) run run'

section Evaluation
variable {resolve resolve' : Resolver}

mutual

/-- Evaluation goes alike when references do. -/
theorem evaluate_mirrors (hc : s.Couples rel) (hres : s.ResolveAlike rel resolve resolve') :
    ∀ (rule : Rule) (input : PathSet) (run run' : Run), s.source.Placed input → rel run run' →
      Mirrors rel s.source.Placed (s.evaluate resolve rule input)
        (s.evaluate resolve' rule input) run run'
  | .terminal tag, input, run, run', hinput, hrel => by
      rw [evaluate, evaluate]
      exact terminal_mirrors hc tag hinput.2 hrel
  | .nonterminal rule, input, run, run', hinput, hrel => by
      rw [evaluate, evaluate]
      refine unite_mirrors hc input (resolve rule) (resolve' rule) input.toList ?_ ∅ (by simp) none
        run run' hrel
      exact fun p hp run run' hrel =>
        hres rule p run run' (hinput.2 p (Std.ExtTreeSet.mem_toList.mp hp)) hrel
  | .sequence items, input, run, run', hinput, hrel => by
      rw [evaluate, evaluate]
      exact evaluateItems_mirrors hc hres items input run run' hinput hrel
  | .optional body, input, run, run', hinput, hrel => by
      rw [evaluate, evaluate]
      apply (evaluate_mirrors hc hres body input run run' hinput hrel).attempt.bind
      intro found after after' hrel hfound
      cases found with
      | ok output => exact .pure hrel (hinput.union (hfound output rfl).2)
      | error e => exact .pure hrel hinput
  | .repetition body, input, run, run', hinput, hrel => by
      rw [evaluate, evaluate]
      exact saturate_mirrors (s.evaluate resolve body) (s.evaluate resolve' body)
        (fun input hinput run run' hrel =>
          evaluate_mirrors hc hres body input run run' hinput hrel)
        (s.pathBound run) (s.pathBound run') input input hinput hinput
        (length_lt_pathBound hinput.1 run) (length_lt_pathBound hinput.1 run') run run' hrel
  | .alternation choices, input, run, run', hinput, hrel => by
      rw [evaluate, evaluate, evaluateChoices_eq, evaluateChoices_eq]
      exact unite_mirrors hc input _ _ choices
        (evaluateChoices_mirrors hc hres choices input hinput) ∅ (by simp) none run run' hrel
  | .switch feature body, input, run, run', hinput, hrel => by
      rw [evaluate, evaluate]
      split
      · exact evaluate_mirrors hc hres body input run run' hinput hrel
      · exact .pure hrel hinput

theorem evaluateItems_mirrors (hc : s.Couples rel)
    (hres : s.ResolveAlike rel resolve resolve') :
    ∀ (items : List Rule) (input : PathSet) (run run' : Run), s.source.Placed input →
      rel run run' → Mirrors rel s.source.Placed (s.evaluateItems resolve items input)
        (s.evaluateItems resolve' items input) run run'
  | [], input, run, run', hinput, hrel => by
      rw [evaluateItems, evaluateItems]
      exact .pure hrel hinput
  | item :: items, input, run, run', hinput, hrel => by
      rw [evaluateItems, evaluateItems]
      apply (evaluate_mirrors hc hres item input run run' hinput hrel).bind
      intro paths after after' hrel hpaths
      exact evaluateItems_mirrors hc hres items paths after after' hpaths hrel

theorem evaluateChoices_mirrors (hc : s.Couples rel)
    (hres : s.ResolveAlike rel resolve resolve') :
    ∀ (choices : List Rule) (input : PathSet), s.source.Placed input →
      ∀ choice ∈ choices, ∀ run run', rel run run' →
        Mirrors rel s.source.Placed (s.evaluate resolve choice input)
          (s.evaluate resolve' choice input) run run'
  | [], _, _, _, hx, _, _, _ => absurd hx List.not_mem_nil
  | choice :: choices, input, hinput, x, hx, run, run', hrel => by
      by_cases h : x = choice
      · rw [h]
        exact evaluate_mirrors hc hres choice input run run' hinput hrel
      · exact evaluateChoices_mirrors hc hres choices input hinput x
          ((List.mem_cons.mp hx).resolve_left h) run run' hrel

end

end Evaluation

end Session
end Multipath
