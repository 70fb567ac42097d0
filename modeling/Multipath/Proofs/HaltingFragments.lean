import Multipath.Proofs.Halting

/-!
The parts of an extraction come to an end. What is reached from a path halts because evaluations do.
Exploring a repetition lists a new position of the chain each time, and iterating over one moves
forward along those that are listed. So fragments halt in sequences and repetitions as soon as the
rules that they are made of can be built.
-/

namespace Multipath

open Search (outputOf readToken)
open Extract (ofSearch)
open Fragment (Steps)

section HaltsIn
variable {σ α β γ : Type} {inv : σ → Prop}

/-- `x` halts like `y`, which leaves the invariant intact and finds what `post` says. -/
def HaltsIn (inv : σ → Prop) (x : Endless σ (Except Failure α)) (y : ExceptT Failure (StateM σ) α)
    (st : σ) (post : α → Prop) : Prop :=
  Halts x y st ∧ Ensures y st fun result after => inv after ∧ ∀ a, result = .ok a → post a

namespace HaltsIn

theorem pure {a : α} {st : σ} {post : α → Prop} (hinv : inv st) (h : post a) :
    HaltsIn inv (Pure.pure a : ExceptT Failure (Endless σ) α).run (Pure.pure a) st post :=
  ⟨.pure a st, ensures_pure.mpr ⟨hinv, fun _ heq => Except.ok.inj heq ▸ h⟩⟩

theorem bind {x : ExceptT Failure (Endless σ) α} {f : α → ExceptT Failure (Endless σ) β}
    {y : ExceptT Failure (StateM σ) α} {g : α → ExceptT Failure (StateM σ) β} {st : σ}
    {middle : α → Prop} {post : β → Prop} (hx : HaltsIn inv x.run y st middle)
    (hfg : ∀ a after, inv after → middle a → HaltsIn inv (f a).run (g a) after post) :
    HaltsIn inv (x >>= f).run (y >>= g) st post := by
  obtain ⟨hhalts, hinv⟩ := hx
  constructor
  · refine hhalts.bind (Ensures.mono hinv fun result after hpost a heq => ?_) fun e => rfl
    exact (hfg a after hpost.1 (hpost.2 a heq)).1
  · refine ensures_bind.mpr (Ensures.mono hinv fun result after hpost => ?_)
    cases result with
    | ok a => exact (hfg a after hpost.1 (hpost.2 a rfl)).2
    | error e => exact ⟨hpost.1, fun _ heq => by cases heq⟩

/-- Going on with the result, whatever it is, under another invariant. -/
theorem settled {inv' : σ → Prop} {x : Endless σ (Except Failure α)}
    {f : Except Failure α → Endless σ (Except Failure β)} {y : ExceptT Failure (StateM σ) α}
    {g : Except Failure α → ExceptT Failure (StateM σ) β} {st : σ} {middle : α → Prop}
    {post : β → Prop} (hx : HaltsIn inv x y st middle)
    (hfg : ∀ result after, inv after → HaltsIn inv' (f result) (g result) after post) :
    HaltsIn inv' (x >>= f) (ExceptT.lift y.run >>= g) st post := by
  constructor
  · exact hx.1.settled (Ensures.mono hx.2 fun result after hpost => (hfg result after hpost.1).1)
  · refine ensures_settled.mpr (Ensures.mono hx.2 fun result after hpost => ?_)
    exact (hfg result after hpost.1).2

theorem mono {x : Endless σ (Except Failure α)} {y : ExceptT Failure (StateM σ) α} {st : σ}
    {post post' : α → Prop} (h : HaltsIn inv x y st post) (himp : ∀ a, post a → post' a) :
    HaltsIn inv x y st post' :=
  ⟨h.1, Ensures.mono h.2 fun _ _ hpost => ⟨hpost.1, fun a heq => himp a (hpost.2 a heq)⟩⟩

/-- The bounded computation looks at the state first. -/
theorem of_get {x : Endless σ (Except Failure α)} {g : σ → ExceptT Failure (StateM σ) α} {st : σ}
    {post : α → Prop} (h : HaltsIn inv x (g st) st post) :
    HaltsIn inv x (MonadState.get >>= g) st post := h

/-- The bounded computation changes the state first. -/
theorem of_modify {change : σ → σ} {x x' : Endless σ (Except Failure α)}
    {y : ExceptT Failure (StateM σ) α} {st : σ} {post : α → Prop} (hx : x st = x' (change st))
    (h : HaltsIn inv x' y (change st) post) :
    HaltsIn inv x (modify change >>= fun _ => y) st post := by
  refine ⟨?_, h.2⟩
  refine ensures_bind.mpr (ensures_modify.mpr ?_)
  rw [hx]
  exact h.1

/-- Going on from a value that the bounded computation has in another form. -/
theorem bind_map {form : γ → α} {x : ExceptT Failure (Endless σ) γ}
    {f : γ → ExceptT Failure (Endless σ) β} {y : ExceptT Failure (StateM σ) α}
    {g : α → ExceptT Failure (StateM σ) β} {st : σ} {middle : α → Prop} {post : β → Prop}
    (hx : HaltsIn inv (form <$> x).run y st middle)
    (hfg : ∀ c after, inv after → middle (form c) → HaltsIn inv (f c).run (g (form c)) after post) :
    HaltsIn inv (x >>= f).run (y >>= g) st post := by
  have hfound : Ensures y st fun result after => ∃ found, x.run st = some (found, after) ∧
      found.map form = result := by
    refine Ensures.mono hx.1 fun result after heq => ?_
    rw [ExceptT.run_map, map_eq_pure_bind] at heq
    obtain ⟨⟨found, last⟩, hfound, heq⟩ := Option.bind_eq_some_iff.mp heq
    cases heq
    exact ⟨found, hfound, rfl⟩
  have hboth := hfound.and hx.2
  constructor
  · refine ensures_bind.mpr (Ensures.mono hboth fun result after hpost => ?_)
    obtain ⟨⟨found, hfound, rfl⟩, hinv, hmiddle⟩ := hpost
    cases found with
    | ok c => exact Halts.after hfound (hfg c after hinv (hmiddle _ rfl)).1
    | error e => exact Halts.after (f := ExceptT.bindCont f) hfound (.throw e after)
  · refine ensures_bind.mpr (Ensures.mono hboth fun result after hpost => ?_)
    obtain ⟨⟨found, hfound, rfl⟩, hinv, hmiddle⟩ := hpost
    cases found with
    | ok c => exact (hfg c after hinv (hmiddle _ rfl)).2
    | error e => exact ⟨hinv, fun _ heq => by cases heq⟩

theorem foldlM {ι : Type} {f : α → ι → ExceptT Failure (Endless σ) α}
    {g : α → ι → ExceptT Failure (StateM σ) α} {is : List ι} {a : α} {st : σ}
    (hfg : ∀ a, ∀ i ∈ is, ∀ st, inv st → HaltsIn inv (f a i).run (g a i) st fun _ => True)
    (hinv : inv st) : HaltsIn inv (is.foldlM f a).run (is.foldlM g a) st fun _ => True := by
  induction is generalizing a st with
  | nil => exact .pure hinv trivial
  | cons i is ih =>
      rw [List.foldlM_cons, List.foldlM_cons]
      refine (hfg a i List.mem_cons_self st hinv).bind fun a after hafter _ => ?_
      exact ih (fun a i hi => hfg a i (List.mem_cons_of_mem _ hi)) hafter

end HaltsIn
end HaltsIn

namespace Extraction

variable {s : Session} {start : Position} {active : Std.TreeSet Stretch} {e : Extraction}

/-- An extraction on the chain between calls, with those stretches under way. -/
structure Ready (s : Session) (start : Position) (active : Std.TreeSet Stretch) (e : Extraction) :
    Prop where
  valid : e.run.Valid s (.chain s.source start)
  resting : e.run.Resting s
  defined : e.run.Defined s
  active_iff : ∀ stretch, stretch ∈ e.active ↔ stretch ∈ active

theorem Ready.size_active (h : e.Ready s start active) : e.active.size = active.size :=
  (Std.TreeSet.Equiv.of_forall_mem_iff h.active_iff).size_eq

/-- A search leaves an extraction ready. -/
theorem Ready.search {α : Type} {x : Search α} {post : α → Run → Prop} (h : e.Ready s start active)
    (hsound : Search.Sound s (.chain s.source start) x e.run post) (hcalls : Keeps s.Calls x) :
    Ensures (Extract.ofSearch x) e fun result e' =>
      e'.Ready s start active ∧ ∀ a, result = .ok a → post a e'.run := by
  refine ensures_ofSearch.mpr (Ensures.mono (hsound.and (hcalls e.run)) fun result run' hpost => ?_)
  obtain ⟨⟨hv, -, hfound⟩, hcalls⟩ := hpost
  exact ⟨⟨hv, (hcalls.leaves h.resting).2, hcalls.defined h.defined, h.active_iff⟩, hfound⟩

end Extraction

section Searching
variable {s : Session} {limit : Limit} {start : Position} {active : Std.TreeSet Stretch}
  {e : Extraction}

/-- A limit on nesting that is the session's own, or none where the session's is out of reach. -/
def Session.Admits (s : Session) (start : Position) (limit : Limit) : Prop :=
  match limit with
  | some most => s.maxDepth = most
  | none => s.ample start ≤ s.maxDepth

theorem Extraction.Ready.run (h : e.Ready s start active) (hlimit : s.Admits start limit) :
    e.run.Ready s start limit (s.maxDepth - e.run.frames.length) (s.references start).length where
  valid := h.valid
  defined := h.defined
  findings := Nat.le_add_left _ _
  room := by
    cases limit with
    | some most => exact congrArg (· - e.run.frames.length) hlimit
    | none =>
        have hample : s.ample start ≤ s.maxDepth := hlimit
        have hlt := s.length_references_lt_ample start
        rw [h.resting.frames, List.length_nil]
        omega

/-- An attempted search inside an extraction halts as the search does. -/
theorem Halts.attempted {α : Type} {x : Endless Run (Except Failure α)} {y : Search α}
    (h : Halts x y e.run) : Halts (Endless.attempt x).run (ofSearch (Search.attempt y)) e := by
  refine ensures_ofSearch.mpr (Search.ensures_attempt.mpr (Ensures.mono h ?_))
  intro result run' hends
  have hx (f : Except Failure α → Endless Extraction (Except Failure (Except Failure α))) :
      (Endless.ofSearch x >>= f) e = f result { e with run := run' } := by
    show ((x e.run).bind _).bind _ = _
    rw [hends]
    rfl
  cases result with
  | ok a => exact hx _
  | error f =>
      dsimp only
      split
      · next hf => exact (hx _).trans (by simp only [hf, if_true]; rfl)
      · next hf => exact (hx _).trans (by simp only [hf]; rfl)

theorem Extraction.Ready.attempt {α : Type} {x : Endless Run (Except Failure α)} {y : Search α}
    {post : α → Prop} (h : e.Ready s start active) (hx : Halts x y e.run)
    (hsound : Search.Sound s (.chain s.source start) y e.run fun a _ => post a)
    (hcalls : Keeps s.Calls y) :
    HaltsIn (Extraction.Ready s start active) (Endless.attempt x).run
      (ofSearch (Search.attempt y)) e fun result => ∀ a, result = .ok a → post a :=
  ⟨hx.attempted, h.search hsound.attempt hcalls.attempt⟩

theorem reach_halts (hlimit : s.Admits start limit) (rule : Rule) {paths : PathSet}
    (stop : Position) (h : e.Ready s start active)
    (hpaths : ∀ p ∈ paths, s.source.OnChain start p) :
    HaltsIn (Extraction.Ready s start active) (Limit.reach s limit rule paths stop).run
      (s.reach rule paths stop) e fun out => ∀ q ∈ out, s.source.OnChain start q := by
  have hwithin : ∀ p ∈ paths, e.run.Within (.chain s.source start) p :=
    fun p hp => .inl (hpaths p hp)
  have hhalts : Halts (Limit.evaluate s limit rule paths) (s.follow rule paths) e.run :=
    Session.evaluate_halts (Session.derivations_halt _ _) rule paths e.run (h.run hlimit) hpaths
  have hsound : Search.Sound s (.chain s.source start) (s.follow rule paths) e.run
      fun out _ => ∀ q ∈ out, s.source.OnChain start q := by
    refine (Session.follow_sound rule paths e.run h.valid hwithin).mono ?_
    intro out run' hv hg hfound q hq
    obtain ⟨p, hp, hl⟩ := hfound.2 q hq
    exact hv.origin_of_within (hv.leads_within hl (hg.within (hwithin p hp)))
  have hcalls : Keeps s.Calls (s.follow rule paths) :=
    fun run => (Session.Calls.none run).follow rfl
  refine (h.attempt hhalts hsound hcalls).bind fun result e' h' hfound => ?_
  cases result with
  | ok out => exact .pure h' fun q hq => hfound out rfl q (SortedSet.mem_filter.mp hq).1
  | error f => exact .pure h' fun q hq => absurd hq Std.ExtTreeSet.not_mem_empty

theorem attempt_derive_halts (hlimit : s.Admits start limit) (rule : RuleId) {p : Position}
    (h : e.Ready s start active) (hp : s.source.OnChain start p) :
    HaltsIn (Extraction.Ready s start active)
      (Endless.attempt (Limit.derive s limit rule p)).run
      (ofSearch (Search.attempt (s.derive rule p))) e fun _ => True := by
  have hhalts : Halts (Limit.derive s limit rule p) (s.derive rule p) e.run :=
    Session.derivations_halt _ _ rule p e.run (h.run hlimit) hp
  have hsound : Search.Sound s (.chain s.source start) (s.derive rule p) e.run fun _ _ => True :=
    (Session.derive_sound rule p e.run h.valid (.inl hp)).mono fun _ _ _ _ _ => trivial
  have hcalls : Keeps s.Calls (s.derive rule p) :=
    fun run => (Session.Calls.none run).derive rfl
  exact (h.attempt hhalts hsound hcalls).mono fun _ _ => trivial

theorem buildTerminal_halts (tag : TagId) {p : Position} (stop : Position)
    (h : e.Ready s start active) (hp : s.source.OnChain start p) :
    HaltsIn (Extraction.Ready s start active) (.ofTotal (s.buildTerminal tag p stop))
      (s.buildTerminal tag p stop) e fun _ => True := by
  have hsound : Search.Sound s (.chain s.source start) (readToken s.source p) e.run
      fun _ _ => True := by
    refine Ensures.mono (readToken_spec h.valid (.inl hp)) fun result run' hpost => ?_
    exact ⟨hpost.1, hpost.2.1.grows, fun _ _ => trivial⟩
  have hcalls : Keeps s.Calls (readToken s.source p) := fun run => (Session.Calls.none run).read rfl
  refine ⟨.ofTotal _ e, ensures_bind.mpr (Ensures.mono (h.search hsound hcalls) ?_)⟩
  intro result e' hpost
  cases result with
  | error f => exact ⟨hpost.1, fun _ _ => trivial⟩
  | ok read =>
      cases read with
      | error f => exact ensures_pure.mpr ⟨hpost.1, fun _ _ => trivial⟩
      | ok token =>
          dsimp only
          split <;> exact ensures_pure.mpr ⟨hpost.1, fun _ _ => trivial⟩

end Searching

namespace Fragment

variable {s : Session} {limit : Limit} {start : Position} {active : Std.TreeSet Stretch}
  {e : Extraction} {branch : Session.BranchBuilder}

/-- The fragment of a rule. -/
def ofRule (s : Session) (branch : Session.BranchBuilder) (item : Rule) : Fragment :=
  ⟨s.reach item, s.build branch item⟩

/-- Building a rule halts wherever it may have to be built. -/
def BuildHalts (s : Session) (limit : Limit) (start : Position) (stops : List Position)
    (active : Std.TreeSet Stretch) (branch : Session.BranchBuilder) (item : Rule) : Prop :=
  ∀ p q e, e.Ready s start active → s.source.OnChain start p → q ∈ stops →
    HaltsIn (Extraction.Ready s start active) (Limit.build s limit item p q).run
      (s.build branch item p q) e fun _ => True

section Sequences
variable (hlimit : s.Admits start limit)
include hlimit

/-- The layers in front of the items, paired with these. -/
theorem layers_halt (stop : Position) (items : List Rule) {paths : PathSet}
    (h : e.Ready s start active) (hpaths : ∀ p ∈ paths, s.source.OnChain start p) :
    HaltsIn (Extraction.Ready s start active)
      (Option.map (List.zip (items.map (ofRule s branch))) <$>
        Limit.layers s limit stop items paths).run
      (layers stop (items.map (ofRule s branch)) paths) e
      fun found => ∀ before, found = some before → ∀ step ∈ before, ∀ p ∈ step.2,
        s.source.OnChain start p := by
  induction items generalizing paths e with
  | nil =>
      rw [Limit.layers, map_pure]
      refine .pure h fun before heq => ?_
      cases heq
      simp
  | cons item items ih =>
      rw [Limit.layers, map_bind, List.map_cons, layers]
      refine (reach_halts hlimit item stop h hpaths).bind fun next e' h' hnext => ?_
      by_cases hempty : next.isEmpty = true
      · rw [if_pos hempty, if_pos hempty, map_pure]
        exact .pure h' fun _ heq => by cases heq
      · rw [if_neg hempty, if_neg hempty, map_bind]
        refine (ih h' hnext).bind_map fun rest e'' h'' hrest => ?_
        rw [map_pure]
        cases rest with
        | none => exact .pure h'' fun _ heq => by cases heq
        | some layers =>
            refine .pure h'' fun before heq step hstep => ?_
            cases heq
            obtain rfl | hstep := List.mem_cons.mp hstep
            · exact hpaths
            · exact hrest _ rfl step hstep

theorem keepViable_halts (item : Rule) (stop : Position) (after : PathSet) {layer : PathSet}
    (h : e.Ready s start active) (hlayer : ∀ p ∈ layer, s.source.OnChain start p) :
    HaltsIn (Extraction.Ready s start active)
      (Limit.keepViable s limit item stop after layer).run
      ((ofRule s branch item).keepViable stop after layer) e fun _ => True := by
  refine .foldlM (fun keep p hp e h => ?_) h
  have hp : ∀ q ∈ ({p} : PathSet), s.source.OnChain start q := by
    simpa using hlayer p (Std.ExtTreeSet.mem_toList.mp hp)
  exact (reach_halts hlimit item stop h hp).bind fun stops e' h' _ => .pure h' trivial

/-- The paths behind the items, paired with these. -/
theorem prune_halts (stop : Position) (items : List Rule) (layers : List PathSet)
    (h : e.Ready s start active)
    (hlayers : ∀ step ∈ (items.map (ofRule s branch)).zip layers, ∀ p ∈ step.2,
      s.source.OnChain start p) :
    HaltsIn (Extraction.Ready s start active)
      (Prod.map id (List.zip (items.map (ofRule s branch))) <$>
        Limit.prune s limit stop items layers).run
      (prune stop ((items.map (ofRule s branch)).zip layers)) e fun _ => True := by
  induction items generalizing layers with
  | nil =>
      rw [Limit.prune, map_pure]
      · exact .pure h trivial
      · simp
  | cons item items ih =>
      cases layers with
      | nil =>
          rw [Limit.prune, map_pure]
          · exact .pure h trivial
          · simp
      | cons layer layers =>
          rw [Limit.prune, map_bind, List.map_cons, List.zip_cons_cons, prune]
          refine (ih layers fun step hstep => hlayers step (by simp [hstep])).bind_map
            fun pruned e' h' _ => ?_
          rw [map_bind]
          have hlayer : ∀ p ∈ layer, s.source.OnChain start p :=
            hlayers (ofRule s branch item, layer) (by simp)
          refine (keepViable_halts hlimit item stop pruned.1 h' hlayer).bind
            fun keep e'' h'' _ => ?_
          rw [map_pure]
          exact .pure h'' trivial

end Sequences

section Choosing
variable {stops : List Position}

theorem firstBuilt_halts {item : Rule} (hbuild : BuildHalts s limit start stops active branch item)
    (hstops : ∀ q, s.source.OnChain start q → q ∈ stops) {p : Position} {qs : List Position}
    (h : e.Ready s start active) (hp : s.source.OnChain start p)
    (hqs : ∀ q ∈ qs, s.source.OnChain start q) :
    HaltsIn (Extraction.Ready s start active) (Limit.firstBuilt s limit item p qs).run
      ((ofRule s branch item).firstBuilt p qs) e
      fun found => ∀ built, found = some built → built.1 ∈ qs := by
  induction qs generalizing e with
  | nil =>
      rw [Limit.firstBuilt]
      exact .pure h fun _ heq => by cases heq
  | cons q qs ih =>
      rw [Limit.firstBuilt, firstBuilt]
      refine (hbuild p q e h hp (hstops q (hqs q List.mem_cons_self))).bind fun found e' h' _ => ?_
      cases found with
      | some nodes =>
          refine .pure h' fun built heq => ?_
          cases heq
          exact List.mem_cons_self
      | none =>
          refine (ih h' fun q hq => hqs q (List.mem_cons_of_mem _ hq)).mono fun found hfound => ?_
          exact fun built heq => List.mem_cons_of_mem _ (hfound built heq)

theorem choose_halts (hlimit : s.Admits start limit)
    (hstops : ∀ q, s.source.OnChain start q → q ∈ stops) (stop : Position) {items : List Rule}
    (hbuild : ∀ item ∈ items, BuildHalts s limit start stops active branch item)
    (afters : List PathSet) {p : Position} (h : e.Ready s start active)
    (hp : s.source.OnChain start p) :
    HaltsIn (Extraction.Ready s start active) (Limit.choose s limit stop items afters p).run
      (choose stop ((items.map (ofRule s branch)).zip afters) p) e fun _ => True := by
  induction items generalizing afters p e with
  | nil =>
      rw [Limit.choose]
      · exact .pure h trivial
      · simp
  | cons item items ih =>
      cases afters with
      | nil =>
          rw [Limit.choose]
          · exact .pure h trivial
          · simp
      | cons after afters =>
          rw [Limit.choose, List.map_cons, List.zip_cons_cons, choose]
          refine (reach_halts hlimit item stop h (by simpa using hp)).bind
            fun ends e' h' hends => ?_
          have hqs : ∀ q ∈ ends.toList.reverse.filter (· ∈ after), s.source.OnChain start q := by
            intro q hq
            have hq := List.mem_reverse.mp (List.mem_filter.mp hq).1
            exact hends q (Std.ExtTreeSet.mem_toList.mp hq)
          refine (firstBuilt_halts (hbuild item List.mem_cons_self) hstops h' hp hqs).bind
            fun found e'' h'' hfound => ?_
          cases found with
          | none => exact .pure h'' trivial
          | some built =>
              refine (ih (fun item hitem => hbuild item (List.mem_cons_of_mem _ hitem)) afters h''
                (hqs _ (hfound built rfl))).bind fun rest e h _ => .pure h trivial

theorem inSequence_halts (hlimit : s.Admits start limit)
    (hstops : ∀ q, s.source.OnChain start q → q ∈ stops) (stop : Position) {items : List Rule}
    (hbuild : ∀ item ∈ items, BuildHalts s limit start stops active branch item) {p : Position}
    (h : e.Ready s start active) (hp : s.source.OnChain start p) :
    HaltsIn (Extraction.Ready s start active)
      (do
        match ← Limit.layers s limit stop items {p} with
        | none => pure none
        | some before =>
          let (viable, afters) ← Limit.prune s limit stop items before
          if p ∈ viable then Limit.choose s limit stop items afters p else pure none :
        ExceptT Failure (Endless Extraction) (Option (List Tree))).run
      (inSequence (items.map (ofRule s branch)) p stop) e fun _ => True := by
  unfold inSequence
  refine (layers_halt hlimit stop items h (by simpa using hp)).bind_map
    fun found e' h' hlayers => ?_
  cases found with
  | none => exact .pure h' trivial
  | some before =>
      refine (prune_halts hlimit stop items before h' (hlayers _ rfl)).bind_map
        fun pruned e'' h'' _ => ?_
      obtain ⟨viable, afters⟩ := pruned
      by_cases hviable : p ∈ viable
      · simp only [Prod.map_apply, id, hviable, if_true]
        exact choose_halts hlimit hstops stop hbuild afters h'' hp
      · simp only [Prod.map_apply, id, hviable, if_false]
        exact .pure h'' trivial

end Choosing

section Repetitions
variable {stops : List Position} {stop p q : Position} {steps : Steps} {next : List Position}

/-- All steps are on the chain and lead forward. -/
structure Steps.Along (src : Source) (start : Position) (steps : Steps) : Prop where
  listed : ∀ p ∈ steps, src.OnChain start p
  forward : ∀ (p : Position) next, steps[p]? = some next →
    ∀ q ∈ next, p < q ∧ src.OnChain start q

theorem Steps.along_empty (src : Source) : Steps.Along src start ∅ where
  listed p hp := by simp at hp
  forward p next h := by simp at h

theorem Steps.Along.insert (h : Steps.Along s.source start steps) (hp : s.source.OnChain start p)
    (hnext : ∀ q ∈ next, p < q ∧ s.source.OnChain start q) :
    Steps.Along s.source start (steps.insert p next) where
  listed q hq := by
    obtain rfl | hq := Steps.mem_insert.mp hq
    · exact hp
    · exact h.listed q hq
  forward q next' hn := by
    rw [Steps.getElem?_insert] at hn
    split at hn
    · next heq =>
        cases hn
        rw [heq]
        exact hnext
    · exact h.forward q next' hn

/-- A position that is not listed yet leaves room for it. -/
theorem Steps.Along.size_lt (h : Steps.Along s.source start steps) (hp : s.source.OnChain start p)
    (hnew : p ∉ steps) : steps.size < (s.source.positionsFrom start).length := by
  have hnodup : (p :: steps.keys).Nodup :=
    List.nodup_cons.mpr ⟨fun hmem => hnew (Std.TreeMap.mem_keys.mp hmem), Std.TreeMap.nodup_keys⟩
  have hsub : p :: steps.keys ⊆ s.source.positionsFrom start := by
    intro q hq
    obtain rfl | hq := List.mem_cons.mp hq
    · exact hp.mem_positionsFrom
    · exact (h.listed q (Std.TreeMap.mem_keys.mp hq)).mem_positionsFrom
  have hle := hnodup.length_le_of_subset hsub
  rwa [List.length_cons, Std.TreeMap.length_keys] at hle

/-- Exploring lists one position of the chain after the other. -/
theorem explore_halts (hlimit : s.Admits start limit) (body : Rule) (n : Nat)
    (pending : List Position) (h : e.Ready s start active)
    (hpending : ∀ p ∈ pending, s.source.OnChain start p) (hsteps : Steps.Along s.source start steps)
    (hn : (s.source.positionsFrom start).length ≤ steps.size + n) :
    HaltsIn (Extraction.Ready s start active)
      (Limit.explore s limit body stop pending steps).run
      ((ofRule s branch body).explore stop n pending steps) e (Steps.Along s.source start) := by
  induction n generalizing pending steps e with
  | zero =>
      rw [Limit.explore, explore]
      obtain ⟨hnil, -⟩ | ⟨front, p, rest, rfl, -, hnew, -⟩ := dropWhile_cases steps.contains pending
      · rw [hnil]
        exact .pure h hsteps
      · have hlt := hsteps.size_lt (hpending p (by simp)) fun hmem => by
          cases hnew.symm.trans (Std.TreeMap.mem_iff_contains.mp hmem)
        omega
  | succ n ih =>
      rw [Limit.explore, explore]
      obtain ⟨hnil, -⟩ | ⟨front, p, rest, rfl, hdrop, hnew, -⟩ :=
        dropWhile_cases steps.contains pending
      · rw [hnil]
        exact .pure h hsteps
      · rw [hdrop]
        have hp : s.source.OnChain start p := hpending p (by simp)
        refine (reach_halts hlimit body stop h (by simpa using hp)).bind fun ends e' h' hends => ?_
        have hnext : ∀ q ∈ ends.toList.filter (p < ·), p < q ∧ s.source.OnChain start q := by
          intro q hq
          obtain ⟨hq, hlt⟩ := List.mem_filter.mp hq
          exact ⟨by simpa using hlt, hends q (Std.ExtTreeSet.mem_toList.mp hq)⟩
        refine ih _ h' (fun q hq => ?_) (hsteps.insert hp hnext) ?_
        · obtain hq | hq := List.mem_append.mp hq
          · exact (hnext q (List.mem_reverse.mp hq)).2
          · exact hpending q (by simp [hq])
        · rw [Std.TreeMap.size_insert, if_neg (by simp [hnew])]
          omega

/-- Iterating moves forward along the positions listed. -/
theorem iterate_halts {body : Rule} (hbuild : BuildHalts s limit start stops active branch body)
    (hstops : ∀ q, s.source.OnChain start q → q ∈ stops)
    (hsteps : Steps.Along s.source start steps) (n : Nat) (h : e.Ready s start active)
    (hp : s.source.OnChain start p) (hn : (steps.behind p).length ≤ n) :
    HaltsIn (Extraction.Ready s start active)
      (Limit.iterate s limit body stop steps (viable stop steps) p).run
      ((ofRule s branch body).iterate stop steps (viable stop steps) n p) e fun _ => True := by
  -- a candidate is listed, and lies further on
  have hcandidates {p : Position} : ∀ q ∈ (steps.getD p []).reverse.filter
      (viable stop steps).contains, p < q ∧ q ∈ steps := by
    intro q hq
    obtain ⟨hq, hviable⟩ := List.mem_filter.mp hq
    have hlisted := mem_steps_of_viable (Std.TreeSet.contains_iff_mem.mp hviable)
    by_cases hp : p ∈ steps
    · exact ⟨(hsteps.forward p _ (Steps.getElem?_of_mem hp) q (List.mem_reverse.mp hq)).1, hlisted⟩
    · rw [Std.TreeMap.getD_eq_fallback hp] at hq
      cases hq
  induction n generalizing p e with
  | zero =>
      rw [Limit.iterate, iterate]
      split
      · exact .pure h trivial
      · have hnone : (steps.getD p []).reverse.filter (viable stop steps).contains = [] := by
          apply List.eq_nil_iff_forall_not_mem.mpr
          intro q hq
          obtain ⟨hlt, hlisted⟩ := hcandidates q hq
          have := Steps.length_behind_lt hlt hlisted
          omega
        rw [hnone, Limit.firstBuilt, pure_bind]
        exact .pure h trivial
  | succ n ih =>
      rw [Limit.iterate, iterate]
      split
      · exact .pure h trivial
      · refine (firstBuilt_halts hbuild hstops h hp fun q hq =>
          hsteps.listed q (hcandidates q hq).2).bind fun found e' h' hfound => ?_
        cases found with
        | none => exact .pure h' trivial
        | some built =>
            obtain ⟨hlt, hlisted⟩ := hcandidates _ (hfound built rfl)
            have := Steps.length_behind_lt hlt hlisted
            refine (ih h' (hsteps.listed _ hlisted) (by omega)).bind fun rest e'' h'' _ => ?_
            exact .pure h'' trivial

theorem inRepetition_halts (hlimit : s.Admits start limit) {body : Rule}
    (hbuild : BuildHalts s limit start stops active branch body)
    (hstops : ∀ q, s.source.OnChain start q → q ∈ stops) (h : e.Ready s start active)
    (hp : s.source.OnChain start p) :
    HaltsIn (Extraction.Ready s start active)
      (if p = stop then pure (some [])
      else do
        let steps ← Limit.explore s limit body stop [p] ∅
        let viable := viable stop steps
        if p ∈ viable then Limit.iterate s limit body stop steps viable p else pure none :
        ExceptT Failure (Endless Extraction) (Option (List Tree))).run
      ((ofRule s branch body).inRepetition (s.pathBound e.run) p stop) e fun _ => True := by
  unfold inRepetition
  split
  · exact .pure h trivial
  · have hn : (s.source.positionsFrom start).length ≤ (∅ : Steps).size + s.pathBound e.run := by
      have hle := s.source.length_tokensFrom_le start
      rw [Source.length_positionsFrom]
      unfold Session.pathBound
      omega
    refine (explore_halts hlimit body _ [p] h (by simpa using hp) (Steps.along_empty _) hn).bind
      fun steps e' h' hsteps => ?_
    dsimp only
    split
    · have hbehind : (steps.behind p).length ≤ steps.size := by
        rw [← Std.TreeMap.length_keys]
        exact List.length_filter_le _ _
      exact iterate_halts hbuild hstops hsteps _ h' hp hbehind
    · exact .pure h' trivial

end Repetitions

end Fragment
end Multipath
