import Multipath.Proofs.Extractions

/-!
Extraction of sequences. The layers in front of the fragments hold all that leads to them, pruning
keeps those from which the stop is in reach, and choosing takes the longest viable match each time.
That no choice is ever regretted has two reasons. A fragment that was taken over some text leaves
a part strictly within the stretch, where nothing bars any completed derivation; and one that was
taken over none could only be matched by nothing, so what was promised behind it still is.
-/

namespace Multipath

/-- What was found is a match, and something was found if it was promised. -/
def Extraction.Fulfils (s : Session) (e : Extraction) (rule : Rule) (p q : Position)
    (found : Option (List Tree)) (e' : Extraction) : Prop :=
  match found with
  | some ts => e'.run.Matches s rule p q ts
  | none => ¬e.Promises s rule p q

/-- A fragment that does what it should for a rule. -/
structure Fragment.Faithful (s : Session) (c : Scope s.source) (rule : Rule) (f : Fragment) :
    Prop where
  -- in every scope, as those that repetitions are counted in are narrower
  reach : ∀ (c : Scope s.source) e paths stop, Extraction.Valid s c e →
    (∀ p ∈ paths, e.run.Within c p) →
    Extract.Gives s c (f.reach paths stop) e fun out e' =>
      (∀ q ∈ out, q ≤ stop ∧ ∃ p ∈ paths, e'.run.Leads s rule p q) ∧
        ∀ p ∈ paths, ∀ q, e.run.Leads s rule p q → q ≤ stop → q ∈ out
  build : ∀ e p q, Extraction.Valid s c e → e.run.Within c p →
    Extract.Gives s c (f.build p q) e (e.Fulfils s rule p q)

theorem PathSet.descending (paths : PathSet) (keep : Position → Bool) :
    (paths.toList.reverse.filter keep).Pairwise fun p q => q < p := by
  refine List.Pairwise.filter _ (List.pairwise_reverse.mpr ?_)
  exact Std.ExtTreeSet.ordered_toList.imp fun h => Position.compare_eq_lt.mp h

namespace Fragment

variable {s : Session} {c : Scope s.source} {e : Extraction} {f : Fragment} {item : Rule}

/-- Of the candidates, given from the furthest on, none is passed over that was promised. -/
theorem Faithful.firstBuilt_gives (hf : f.Faithful s c item) (p : Position)
    (stops : List Position) (hsorted : stops.Pairwise fun a b => b < a) (e : Extraction)
    (he : e.Valid s c) (hp : e.run.Within c p) :
    Extract.Gives s c (f.firstBuilt p stops) e fun found e' =>
      match found with
      | some (q, ts) => q ∈ stops ∧ e'.run.Matches s item p q ts ∧
          ∀ m ∈ stops, e.Promises s item p m → m ≤ q
      | none => ∀ m ∈ stops, ¬e.Promises s item p m := by
  induction stops generalizing e with
  | nil => exact .pure he fun m hm => absurd hm List.not_mem_nil
  | cons stop stops ih =>
      obtain ⟨hlt, hsorted⟩ := List.pairwise_cons.mp hsorted
      rw [firstBuilt]
      refine (hf.build e p stop he hp).bind fun found e₁ he₁ hg₁ hfound => ?_
      cases found with
      | some nodes =>
          refine .pure he₁ ⟨by simp, hfound, fun m hm _ => ?_⟩
          obtain rfl | hm := List.mem_cons.mp hm
          · exact Position.le_refl _
          · exact Position.le_of_lt (hlt m hm)
      | none =>
          refine (ih hsorted e₁ he₁ (hg₁.run.within hp)).mono fun found e₂ _ _ hrest => ?_
          cases found with
          | none =>
              intro m hm hpr
              obtain rfl | hm := List.mem_cons.mp hm
              · exact hfound hpr
              · exact hrest m hm (hg₁.promises he hpr)
          | some built =>
              obtain ⟨hmem, hmatch, hmax⟩ := hrest
              refine ⟨List.mem_cons_of_mem _ hmem, hmatch, fun m hm hpr => ?_⟩
              obtain rfl | hm := List.mem_cons.mp hm
              · exact absurd hpr hfound
              · exact hmax m hm (hg₁.promises he hpr)

section Layers

/-- The layers in front of the items: each holds all that `run₀` leads to from the one before. -/
inductive Layered (s : Session) (c : Scope s.source) (run₀ : Run) (stop : Position) (run : Run) :
    List Rule → PathSet → List (Fragment × PathSet) → Prop
  | nil {paths} : Layered s c run₀ stop run [] paths []
  | cons {f item items paths next before} : f.Faithful s c item →
      (∀ p ∈ paths, run.Within c p) →
      (∀ p ∈ paths, ∀ q, run₀.Leads s item p q → q ≤ stop → q ∈ next) →
      Layered s c run₀ stop run items next before →
      Layered s c run₀ stop run (item :: items) paths ((f, paths) :: before)

theorem layers_gives (frag : Rule → Fragment) (stop : Position) {run₀ : Run}
    (hv₀ : run₀.Valid s c) (items : List Rule)
    (hfrag : ∀ item ∈ items, (frag item).Faithful s c item) (paths : PathSet) (e : Extraction)
    (he : e.Valid s c) (hg₀ : run₀.Grows e.run) (hwithin : ∀ p ∈ paths, e.run.Within c p) :
    Extract.Gives s c (layers stop (items.map frag) paths) e fun found e' =>
      match found with
      | some before => Layered s c run₀ stop e'.run items paths before
      | none => ∀ p ∈ paths, ¬run₀.Leads s (.sequence items) p stop := by
  induction items generalizing paths e with
  | nil => exact .pure he .nil
  | cons item items ih =>
      have hf := hfrag item (by simp)
      rw [List.map_cons, layers]
      refine (hf.reach c e paths stop he hwithin).bind fun next e₁ he₁ hg₁ hpost => ?_
      obtain ⟨hfound, hall⟩ := hpost
      have hnext : ∀ p ∈ paths, ∀ q, run₀.Leads s item p q → q ≤ stop → q ∈ next :=
        fun p hp q hl => hall p hp q (hg₀.leads hv₀ he.run hl)
      -- a way over all items goes through the next layer
      have hthrough : ∀ p ∈ paths, run₀.Leads s (.sequence (item :: items)) p stop →
          ∃ m ∈ next, run₀.Leads s (.sequence items) m stop := by
        intro p hp hl
        cases hl with
        | cons hitem hitems =>
            exact ⟨_, hnext p hp _ hitem (hv₀.leads_upto hitems).le, hitems⟩
      split
      · next hempty =>
          refine .pure he₁ fun p hp hl => ?_
          obtain ⟨m, hm, -⟩ := hthrough p hp hl
          rw [Std.ExtTreeSet.isEmpty_iff.mp hempty] at hm
          exact Std.ExtTreeSet.not_mem_empty hm
      · have hwithin₁ : ∀ q ∈ next, e₁.run.Within c q := by
          intro q hq
          obtain ⟨-, p, hp, hl⟩ := hfound q hq
          exact he₁.run.leads_within hl (hg₁.run.within (hwithin p hp))
        refine (ih (fun i hi => hfrag i (by simp [hi])) next e₁ he₁ (hg₀.trans hg₁.run)
          hwithin₁).bind fun found e₂ he₂ hg₂ hrest => ?_
        cases found with
        | some before =>
            exact .pure he₂ (.cons hf (fun p hp => hg₂.run.within (hg₁.run.within (hwithin p hp)))
              hnext hrest)
        | none =>
            refine .pure he₂ fun p hp hl => ?_
            obtain ⟨m, hm, hl⟩ := hthrough p hp hl
            exact hrest m hm hl

end Layers

section Pruning

/-- A path is kept if the fragment leads from it to one of those behind. -/
theorem Faithful.keepOne_gives (hf : f.Faithful s c item) (stop : Position) (after : PathSet)
    (p : Position) (keep : PathSet) (e : Extraction) (he : e.Valid s c) (hp : e.run.Within c p) :
    Extract.Gives s c (do
      let stops ← f.reach {p} stop
      pure (if stops.toList.any (· ∈ after) then keep.insert p else keep)) e fun out e' =>
      (∀ p' ∈ out, p' ∈ keep ∨ p' = p ∧ ∃ q ∈ after, e'.run.Leads s item p q) ∧
        (∀ p' ∈ keep, p' ∈ out) ∧
        ∀ q ∈ after, e.run.Leads s item p q → q ≤ stop → p ∈ out := by
  have hwithin : ∀ p' ∈ ({p} : PathSet), e.run.Within c p' := by simpa using hp
  refine (hf.reach c e {p} stop he hwithin).bind fun stops e₁ he₁ hg₁ hreach => .pure he₁ ?_
  obtain ⟨hfound, hall⟩ := hreach
  split
  · next hany =>
      obtain ⟨q, hq, hafter⟩ := List.any_eq_true.mp hany
      obtain ⟨-, p', hp', hl⟩ := hfound q (Std.ExtTreeSet.mem_toList.mp hq)
      rw [SortedSet.mem_singleton.mp hp'] at hl
      refine ⟨fun p' hp' => ?_, fun p' hp' => SortedSet.mem_insert.mpr (.inr hp'),
        fun _ _ _ _ => SortedSet.mem_insert.mpr (.inl rfl)⟩
      obtain rfl | hp' := SortedSet.mem_insert.mp hp'
      · exact .inr ⟨rfl, q, by simpa using hafter, hl⟩
      · exact .inl hp'
  · next hnone =>
      refine ⟨fun p' hp' => .inl hp', fun p' hp' => hp', fun q hq hl hle => ?_⟩
      have hstop := hall p (SortedSet.mem_singleton.mpr rfl) q hl hle
      exact absurd (List.any_eq_true.mpr ⟨q, Std.ExtTreeSet.mem_toList.mpr hstop, by
        simpa using hq⟩) hnone

theorem Faithful.keepAll_gives (hf : f.Faithful s c item) (stop : Position) (after : PathSet)
    (ps : List Position) (keep : PathSet) (e : Extraction) (he : e.Valid s c)
    (hwithin : ∀ p ∈ ps, e.run.Within c p) :
    Extract.Gives s c (ps.foldlM (fun keep p => do
      let stops ← f.reach {p} stop
      pure (if stops.toList.any (· ∈ after) then keep.insert p else keep)) keep) e fun out e' =>
      (∀ p ∈ out, p ∈ keep ∨ p ∈ ps ∧ ∃ q ∈ after, e'.run.Leads s item p q) ∧
        (∀ p ∈ keep, p ∈ out) ∧
        ∀ p ∈ ps, ∀ q ∈ after, e.run.Leads s item p q → q ≤ stop → p ∈ out := by
  induction ps generalizing keep e with
  | nil => exact .pure he ⟨fun _ hp => .inl hp, fun _ hp => hp, by simp⟩
  | cons p ps ih =>
      rw [List.foldlM_cons]
      refine (hf.keepOne_gives stop after p keep e he (hwithin p (by simp))).bind
        fun keep₁ e₁ he₁ hg₁ hkeep => ?_
      obtain ⟨hsome, hkept, hall⟩ := hkeep
      refine (ih keep₁ e₁ he₁ fun p' hp' => hg₁.run.within (hwithin p' (by simp [hp']))).mono
        fun out e₂ he₂ hg₂ hrest => ?_
      obtain ⟨hsome', hkept', hall'⟩ := hrest
      refine ⟨fun p' hp' => ?_, fun p' hp' => hkept' p' (hkept p' hp'),
        fun p' hp' q hq hl hle => ?_⟩
      · obtain hp' | ⟨hp', hway⟩ := hsome' p' hp'
        · obtain hp' | ⟨rfl, q, hq, hl⟩ := hsome p' hp'
          · exact .inl hp'
          · exact .inr ⟨by simp, q, hq, hg₂.run.leads he₁.run he₂.run hl⟩
        · exact .inr ⟨List.mem_cons_of_mem _ hp', hway⟩
      · obtain rfl | hp' := List.mem_cons.mp hp'
        · exact hkept' p' (hall q hq hl hle)
        · exact hall' p' hp' q hq (hg₁.run.leads he.run he₁.run hl) hle

theorem Faithful.keepViable_gives (hf : f.Faithful s c item) (stop : Position)
    (after layer : PathSet) (e : Extraction) (he : e.Valid s c)
    (hwithin : ∀ p ∈ layer, e.run.Within c p) :
    Extract.Gives s c (f.keepViable stop after layer) e fun keep e' =>
      (∀ p ∈ keep, ∃ q ∈ after, e'.run.Leads s item p q) ∧
        ∀ p ∈ layer, ∀ q ∈ after, e.run.Leads s item p q → q ≤ stop → p ∈ keep := by
  refine (hf.keepAll_gives stop after layer.toList ∅ e he (by simpa using hwithin)).mono
    fun keep e' _ _ hpost => ?_
  obtain ⟨hsome, -, hall⟩ := hpost
  refine ⟨fun p hp => ?_, fun p hp => hall p (Std.ExtTreeSet.mem_toList.mpr hp)⟩
  obtain hp | ⟨-, hway⟩ := hsome p hp
  · exact absurd hp Std.ExtTreeSet.not_mem_empty
  · exact hway

/-- The items lead from a position to the stop through the paths kept behind each fragment. -/
inductive Kept (g : Grammar) (reads : Position → Token → Prop)
    (refers : RuleId → Position → Position → Prop) (stop : Position) :
    List Rule → List (Fragment × PathSet) → Position → Prop
  | nil : Kept g reads refers stop [] [] stop
  | cons {f item items after steps p m} : m ∈ after → g.Leads reads refers item p m →
      Kept g reads refers stop items steps m →
      Kept g reads refers stop (item :: items) ((f, after) :: steps) p

variable {reads reads' : Position → Token → Prop}
  {refers refers' : RuleId → Position → Position → Prop} {items : List Rule}
  {steps : List (Fragment × PathSet)} {stop p : Position}

theorem Kept.mono (h : Kept s.grammar reads refers stop items steps p)
    (hreads : ∀ p t, reads p t → reads' p t)
    (hrefers : ∀ rule p q, refers rule p q → refers' rule p q) :
    Kept s.grammar reads' refers' stop items steps p := by
  induction h with
  | nil => exact .nil
  | cons hm hl _ ih => exact .cons hm (hl.mono hreads hrefers) ih

theorem Kept.leads (h : Kept s.grammar reads refers stop items steps p) :
    s.grammar.Leads reads refers (.sequence items) p stop := by
  induction h with
  | nil => exact .nil
  | cons _ hl _ ih => exact .cons hl ih

/-- No path is kept from which the stop is out of reach. -/
inductive Fenced (s : Session) (c : Scope s.source) (stop : Position) (run : Run) :
    List Rule → List (Fragment × PathSet) → Prop
  | nil : Fenced s c stop run [] []
  | cons {f item items after steps} : f.Faithful s c item →
      (∀ m ∈ after, Kept s.grammar run.Reads run.Known stop items steps m) →
      Fenced s c stop run items steps → Fenced s c stop run (item :: items) ((f, after) :: steps)

theorem Fenced.mono {run run' : Run} (h : Fenced s c stop run items steps)
    (hg : run.Grows run') (hv : run.Valid s c) (hv' : run'.Valid s c) :
    Fenced s c stop run' items steps := by
  induction h with
  | nil => exact .nil
  | cons hf hafter _ ih =>
      refine .cons hf (fun m hm => ?_) ih
      exact (hafter m hm).mono (fun _ _ => hg.reads) fun _ _ _ => hg.known hv hv'

theorem prune_gives {run₀ : Run} (hv₀ : run₀.Valid s c) {paths : PathSet}
    {before : List (Fragment × PathSet)} (e : Extraction) (he : e.Valid s c)
    (hg₀ : run₀.Grows e.run) (hbefore : Layered s c run₀ stop e.run items paths before) :
    Extract.Gives s c (prune stop before) e fun (viable, steps) e' =>
      (∀ p ∈ viable, Kept s.grammar e'.run.Reads e'.run.Known stop items steps p) ∧
        Fenced s c stop e'.run items steps ∧
        ∀ p ∈ paths, ∀ n, s.grammar.Leads run₀.Reads (run₀.Settled n) (.sequence items) p stop →
          p ∈ viable ∧ Kept s.grammar run₀.Reads (run₀.Settled n) stop items steps p := by
  generalize hrun : e.run = run at hbefore
  induction hbefore generalizing e with
  | nil =>
      refine .pure he ⟨fun p hp => ?_, .nil, fun p _ n hl => ?_⟩
      · rw [SortedSet.mem_singleton.mp hp]
        exact .nil
      · cases hl with
        | nil => exact ⟨SortedSet.mem_singleton.mpr rfl, .nil⟩
  | @cons f item items paths next before hf hwithin hnext hrest ih =>
      subst hrun
      rw [prune]
      refine (ih e he hg₀ rfl).bind fun pruned e₁ he₁ hg₁ hpost => ?_
      obtain ⟨after, steps⟩ := pruned
      obtain ⟨hafter, hfenced, hall⟩ := hpost
      refine (hf.keepViable_gives stop after paths e₁ he₁
        fun p hp => hg₁.run.within (hwithin p hp)).bind fun viable e₂ he₂ hg₂ hkeep => ?_
      obtain ⟨hviable, hkept⟩ := hkeep
      have hafter₂ : ∀ m ∈ after, Kept s.grammar e₂.run.Reads e₂.run.Known stop items steps m :=
        fun m hm => (hafter m hm).mono (fun _ _ => hg₂.run.reads)
          fun _ _ _ => hg₂.run.known he₁.run he₂.run
      refine .pure he₂ ⟨fun p hp => ?_, .cons hf hafter₂ (hfenced.mono hg₂.run he₁.run he₂.run),
        fun p hp n hl => ?_⟩
      · obtain ⟨m, hm, hl⟩ := hviable p hp
        exact .cons hm hl (hafter₂ m hm)
      · cases hl with
        | @cons _ _ _ m _ hitem hitems =>
            have hle : m ≤ stop := (hv₀.leads_upto hitems).le
            have hknown : run₀.Leads s item p m :=
              hv₀.leads_of_settled hitem
            obtain ⟨hm, hrest⟩ := hall m (hnext p hp m hknown hle) n hitems
            refine ⟨hkept p hp m hm ?_ hle, .cons hm hitem hrest⟩
            exact (hg₀.trans hg₁.run).leads hv₀ he₁.run hknown

end Pruning

section Choosing
variable {stop : Position}

/-- Choosing is never stuck on a way that nothing bars. -/
theorem choose_gives (items : List Rule) (steps : List (Fragment × PathSet)) (p : Position)
    (e : Extraction) (he : e.Valid s c) (hp : e.run.Within c p)
    (hfenced : Fenced s c stop e.run items steps)
    (hkept : Kept s.grammar e.run.Reads e.run.Known stop items steps p) :
    Extract.Gives s c (choose stop steps p) e fun found e' =>
      match found with
      | some ts => e'.run.Matches s (.sequence items) p stop ts
      | none => ∀ n, e.Clear n p stop →
          ¬Kept s.grammar e.run.Reads (e.run.Settled n) stop items steps p := by
  induction items generalizing steps p e with
  | nil =>
      cases hfenced
      cases hkept
      exact .pure he .nil
  | cons item items ih =>
      cases hfenced with
      | @cons f _ _ after steps hf hafter hfenced =>
      have hwithin : ∀ p' ∈ ({p} : PathSet), e.run.Within c p' := by simpa using hp
      rw [choose]
      refine (hf.reach c e {p} stop he hwithin).bind fun stops e₁ he₁ hg₁ hreach => ?_
      obtain ⟨hfound, hall⟩ := hreach
      have hp₁ := hg₁.run.within hp
      refine (hf.firstBuilt_gives p _ (PathSet.descending stops _) e₁ he₁ hp₁).bind
        fun found e₂ he₂ hg₂ hfirst => ?_
      have hg := hg₁.trans hg₂
      -- whatever the first item is promised up to is a candidate
      have hcandidate : ∀ n, e.Clear n p stop → ∀ m ∈ after,
          s.grammar.Leads e.run.Reads (e.run.Settled n) item p m → m.Upto stop →
          m ∈ stops.toList.reverse.filter (· ∈ after) ∧ e₁.Promises s item p m := by
        intro n hclear m hm hl hupto
        have hmem := hall p (SortedSet.mem_singleton.mpr rfl) m (he.run.leads_of_settled hl)
          hupto.le
        refine ⟨?_, hg₁.promises he ⟨n, ?_, hl⟩⟩
        · simp only [List.mem_filter, List.mem_reverse, Std.ExtTreeSet.mem_toList]
          exact ⟨hmem, by simpa using hm⟩
        · exact hclear.inner (Nat.le_refl _) hupto.index_le
      cases found with
      | none =>
          refine .pure he₂ fun n hclear hway => ?_
          cases hway with
          | cons hm hl hrest =>
              obtain ⟨hmem, hpr⟩ := hcandidate n hclear _ hm hl (he.run.leads_upto hrest.leads)
              exact hfirst _ hmem hpr
      | some built =>
          obtain ⟨q, nodes⟩ := built
          obtain ⟨hq, hnodes, hmax⟩ := hfirst
          simp only [List.mem_filter, List.mem_reverse, Std.ExtTreeSet.mem_toList,
            decide_eq_true_eq] at hq
          obtain ⟨hstop, hqafter⟩ := hq
          obtain ⟨-, p', hp', hlead⟩ := hfound q hstop
          rw [SortedSet.mem_singleton.mp hp'] at hlead
          have hupto := he₁.run.leads_upto hlead
          have hq₂ := hg₂.run.within (he₁.run.leads_within hlead hp₁)
          have hkept₂ : Kept s.grammar e₂.run.Reads e₂.run.Known stop items steps q :=
            (hafter q hqafter).mono (fun _ _ => hg.run.reads)
              fun _ _ _ => hg.run.known he.run he₂.run
          refine (ih steps q e₂ he₂ hq₂ (hfenced.mono hg.run he.run he₂.run) hkept₂).bind
            fun found e₃ he₃ hg₃ hrest => ?_
          cases found with
          | some ts => exact .pure he₃ (.cons (hg₃.run.matches he₂.run he₃.run hnodes) hrest)
          | none =>
              refine .pure he₃ fun n hclear hway => ?_
              obtain rfl | hlt := hupto
              · -- nothing was consumed, so the way goes on from the same position
                cases hway with
                | @cons _ _ _ _ _ _ m hm hl hway =>
                    have hpm := he.run.leads_upto hl
                    obtain ⟨hmem, hpr⟩ :=
                      hcandidate n hclear m hm hl (he.run.leads_upto hway.leads)
                    obtain rfl := hpm.eq_of_le (hmax m hmem hpr)
                    exact hrest n (hg.clear hclear) (hway.mono (fun _ _ => hg.run.reads)
                      fun _ _ _ => hg.run.settled he.run)
              · -- what is left lies strictly within
                refine hrest e₂.run.arena.size (hg.clear ?_) hkept₂
                exact hclear.strictly (Nat.le_of_lt hlt) (Nat.le_refl _) (.inl hlt) _

/-- Sequences of fragments are extracted as promised. -/
theorem inSequence_gives (frag : Rule → Fragment) (items : List Rule)
    (hfrag : ∀ item ∈ items, (frag item).Faithful s c item) (start stop : Position)
    (e : Extraction) (he : e.Valid s c) (hstart : e.run.Within c start) :
    Extract.Gives s c (inSequence (items.map frag) start stop) e
      (e.Fulfils s (.sequence items) start stop) := by
  have hwithin : ∀ p ∈ ({start} : PathSet), e.run.Within c p := by simpa using hstart
  rw [inSequence]
  refine (layers_gives frag stop he.run items hfrag {start} e he (.refl _) hwithin).bind
    fun found e₁ he₁ hg₁ hlayers => ?_
  cases found with
  | none =>
      refine .pure he₁ fun hpr => ?_
      obtain ⟨n, -, hl⟩ := hpr
      exact hlayers start (SortedSet.mem_singleton.mpr rfl) (he.run.leads_of_settled hl)
  | some before =>
      refine (prune_gives he.run e₁ he₁ hg₁.run hlayers).bind
        fun pruned e₂ he₂ hg₂ hprune => ?_
      obtain ⟨viable, after⟩ := pruned
      obtain ⟨hviable, hfenced, hall⟩ := hprune
      have hstart₂ := (hg₁.trans hg₂).run.within hstart
      dsimp only
      split
      · next hmem =>
          refine (choose_gives items after start e₂ he₂ hstart₂ hfenced
            (hviable start hmem)).mono fun found e₃ _ _ hchoose => ?_
          cases found with
          | some ts => exact hchoose
          | none =>
              intro hpr
              obtain ⟨n, hclear, hl⟩ := hpr
              have hg := hg₁.trans hg₂
              have hway := (hall start (SortedSet.mem_singleton.mpr rfl) n hl).2
              exact hchoose n (hg.clear hclear) (hway.mono (fun _ _ => hg.run.reads)
                fun _ _ _ => hg.run.settled he.run)
      · next hmem =>
          refine .pure he₂ fun hpr => ?_
          obtain ⟨n, -, hl⟩ := hpr
          exact hmem (hall start (SortedSet.mem_singleton.mpr rfl) n hl).1

end Choosing

end Fragment
end Multipath
