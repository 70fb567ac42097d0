import Multipath.Proofs.Examinations

/-!
Branches for which no rule that meets itself is asked for. Fragments are followed from positions of
some kind only (`Fragment.Upholds`), so what is kept where all that is examined is grounded, is kept
by sequences and repetitions of them. Where extracting a branch examines nothing else, it leaves no
mark of a rule that met itself, on whatever run (`Footing.build_secure`).
-/

namespace Multipath

/-- Whatever comes of an extraction the invariant is kept, and what it gives satisfies `post`. -/
def Extract.Upholds {α : Type} (inv : Extraction → Prop) (x : Extract α) (e : Extraction)
    (post : α → Prop) : Prop :=
  Ensures x e fun result e' => inv e' ∧ ∀ a, result = .ok a → post a

namespace Extract.Upholds

variable {α β : Type} {inv : Extraction → Prop} {e : Extraction} {post : α → Prop}

theorem pure {a : α} (h : inv e) (ha : post a) : Upholds inv (Pure.pure a) e post :=
  ensures_pure.mpr ⟨h, fun _ hb => Except.ok.inj hb ▸ ha⟩

theorem bind {x : Extract α} {f : α → Extract β} {post' : β → Prop} (h : Upholds inv x e post)
    (hf : ∀ a e', inv e' → post a → Upholds inv (f a) e' post') :
    Upholds inv (x >>= f) e post' := by
  refine ensures_bind.mpr (Ensures.mono h fun result e' hpost => ?_)
  cases result with
  | error f => exact ⟨hpost.1, nofun⟩
  | ok a => exact hf a e' hpost.1 (hpost.2 a rfl)

theorem mono {x : Extract α} {post' : α → Prop} (h : Upholds inv x e post)
    (himp : ∀ a, post a → post' a) : Upholds inv x e post' :=
  Ensures.mono h fun _ _ hpost => ⟨hpost.1, fun a ha => himp a (hpost.2 a ha)⟩

theorem of_yields {s : Session} {i : Ideal s} {x : Extract α} {settled : Except Failure α → Prop}
    (h : i.Yields x e post settled) : Upholds i.inv x e post :=
  Ensures.mono h fun _ _ hpost => ⟨hpost.1, hpost.2.2.1⟩

end Extract.Upholds

namespace Fragment

/-- From positions of one kind, the fragment leads to positions of another one and is built, and
the invariant is kept. -/
structure Upholds (inv : Extraction → Prop) (stop : Position) (here there : Position → Prop)
    (f : Fragment) : Prop where
  reach : ∀ {paths e}, inv e → (∀ p ∈ paths, here p) →
    Extract.Upholds inv (f.reach paths stop) e fun out => ∀ q ∈ out, there q
  build : ∀ {p e} q, inv e → here p → Extract.Upholds inv (f.build p q) e fun _ => True

/-- Each fragment leads to positions of the kind that the next one is followed from. -/
inductive Row (inv : Extraction → Prop) (stop : Position) :
    (Position → Prop) → List Fragment → Prop
  | nil {here} : Row inv stop here []
  | cons {here there f fs} : f.Upholds inv stop here there → Row inv stop there fs →
      Row inv stop here (f :: fs)

/-- So it is with the paths in front of them. -/
inductive Fronted (inv : Extraction → Prop) (stop : Position) :
    (Position → Prop) → List (Fragment × PathSet) → Prop
  | nil {here} : Fronted inv stop here []
  | cons {here there f layer steps} : f.Upholds inv stop here there → (∀ p ∈ layer, here p) →
      Fronted inv stop there steps → Fronted inv stop here ((f, layer) :: steps)

variable {inv : Extraction → Prop} {stop p : Position} {here there : Position → Prop}
  {f : Fragment} {e : Extraction}

theorem Upholds.reach_singleton (hf : f.Upholds inv stop here there) (h : inv e) (hp : here p) :
    Extract.Upholds inv (f.reach {p} stop) e fun out => ∀ q ∈ out, there q :=
  hf.reach h fun _ hp' => SortedSet.mem_singleton.mp hp' ▸ hp

theorem Upholds.firstBuilt (hf : f.Upholds inv stop here there) (hp : here p)
    (stops : List Position) (h : inv e) :
    Extract.Upholds inv (f.firstBuilt p stops) e fun found =>
      ∀ q nodes, found = some (q, nodes) → q ∈ stops := by
  induction stops generalizing e with
  | nil => exact .pure h nofun
  | cons q stops ih =>
      rw [Fragment.firstBuilt]
      refine (hf.build q h hp).bind fun found e₁ h₁ _ => ?_
      cases found with
      | some nodes =>
          refine .pure h₁ fun q' nodes' heq => ?_
          cases heq
          exact List.mem_cons_self
      | none =>
          exact (ih h₁).mono fun found hfound q' nodes heq =>
            List.mem_cons_of_mem _ (hfound q' nodes heq)

section Sequences

theorem Row.layers {fs : List Fragment} (hrow : Row inv stop here fs) {paths : PathSet}
    (hpaths : ∀ p ∈ paths, here p) (h : inv e) :
    Extract.Upholds inv (layers stop fs paths) e fun found =>
      ∀ steps, found = some steps → Fronted inv stop here steps := by
  induction hrow generalizing paths e with
  | nil =>
      refine .pure h fun steps heq => ?_
      cases heq
      exact .nil
  | cons hf _ ih =>
      rw [Fragment.layers]
      refine (hf.reach h hpaths).bind fun next e₁ h₁ hnext => ?_
      split
      · exact .pure h₁ fun _ heq => by cases heq
      · refine (ih hnext h₁).bind fun found e₂ h₂ hfronted => .pure h₂ fun steps heq => ?_
        obtain ⟨rest, rfl, rfl⟩ := Option.map_eq_some_iff.mp heq
        exact .cons hf hpaths (hfronted rest rfl)

theorem Upholds.keepViable (hf : f.Upholds inv stop here there) (after : PathSet) {layer : PathSet}
    (hlayer : ∀ p ∈ layer, here p) (h : inv e) :
    Extract.Upholds inv (f.keepViable stop after layer) e fun _ => True := by
  have hfold (ps : List Position) (hps : ∀ p ∈ ps, here p) (keep : PathSet) (e : Extraction)
      (h : inv e) : Extract.Upholds inv (ps.foldlM (fun keep p => do
        let stops ← f.reach {p} stop
        pure (if stops.toList.any (· ∈ after) then keep.insert p else keep)) keep) e
        fun _ => True := by
    induction ps generalizing keep e with
    | nil => exact .pure h trivial
    | cons p ps ih =>
        rw [List.foldlM_cons, bind_assoc]
        refine (hf.reach_singleton h (hps p List.mem_cons_self)).bind fun stops e₁ h₁ _ => ?_
        exact ih (fun p hp => hps p (List.mem_cons_of_mem _ hp)) _ e₁ h₁
  exact hfold layer.toList (fun p hp => hlayer p (Std.ExtTreeSet.mem_toList.mp hp)) ∅ e h

/-- Pruning goes over the same fragments. -/
theorem Fronted.prune {steps : List (Fragment × PathSet)} (hsteps : Fronted inv stop here steps)
    (h : inv e) : Extract.Upholds inv (prune stop steps) e fun found =>
      Row inv stop here (found.2.map Prod.fst) := by
  induction hsteps generalizing e with
  | nil => exact .pure h .nil
  | cons hf hlayer _ ih =>
      rw [Fragment.prune]
      refine (ih h).bind fun found e₁ h₁ hrow => ?_
      exact (hf.keepViable found.1 hlayer h₁).bind fun keep e₂ h₂ _ => .pure h₂ (.cons hf hrow)

theorem choose_upholds (steps : List (Fragment × PathSet)) {here : Position → Prop}
    (hrow : Row inv stop here (steps.map Prod.fst)) (hp : here p) (h : inv e) :
    Extract.Upholds inv (choose stop steps p) e fun _ => True := by
  induction steps generalizing here p e with
  | nil => exact .pure h trivial
  | cons step steps ih =>
      obtain ⟨f, after⟩ := step
      cases hrow with
      | cons hf hrow =>
          rw [Fragment.choose]
          refine (hf.reach_singleton h hp).bind fun stops e₁ h₁ hstops => ?_
          refine (hf.firstBuilt hp _ h₁).bind fun found e₂ h₂ hfound => ?_
          cases found with
          | none => exact .pure h₂ trivial
          | some built =>
              have hq := (List.mem_filter.mp (hfound built.1 built.2 rfl)).1
              rw [List.mem_reverse, Std.ExtTreeSet.mem_toList] at hq
              exact (ih hrow (hstops _ hq) h₂).bind fun _ e₃ h₃ _ => .pure h₃ trivial

theorem Row.inSequence {fs : List Fragment} (hrow : Row inv stop here fs) (hp : here p)
    (h : inv e) : Extract.Upholds inv (inSequence fs p stop) e fun _ => True := by
  rw [Fragment.inSequence]
  refine (hrow.layers (fun p' hp' => SortedSet.mem_singleton.mp hp' ▸ hp) h).bind
    fun found e₁ h₁ hfronted => ?_
  cases found with
  | none => exact .pure h₁ trivial
  | some steps =>
      refine ((hfronted steps rfl).prune h₁).bind fun pruned e₂ h₂ hrow => ?_
      dsimp only
      split
      · exact choose_upholds pruned.2 hrow hp h₂
      · exact .pure h₂ trivial

end Sequences

section Repetitions

/-- Steps lead to positions of the same kind. -/
def Steps.Among (here : Position → Prop) (steps : Steps) : Prop :=
  ∀ (p : Position) next, steps[p]? = some next → ∀ q ∈ next, here q

theorem Upholds.explore (hf : f.Upholds inv stop here here) (n : Nat) (pending : List Position)
    (steps : Steps) (hpending : ∀ p ∈ pending, here p) (hsteps : steps.Among here) (h : inv e) :
    Extract.Upholds inv (f.explore stop n pending steps) e (Steps.Among here) := by
  induction n generalizing pending steps e with
  | zero => exact .pure h hsteps
  | succ n ih =>
      rw [Fragment.explore]
      obtain ⟨hnil, -⟩ | ⟨front, p, rest, rfl, hdrop, -, -⟩ :=
        dropWhile_cases steps.contains pending
      · rw [hnil]
        exact .pure h hsteps
      · rw [hdrop]
        refine (hf.reach_singleton h (hpending p (by simp))).bind fun stops e₁ h₁ hstops => ?_
        have hnext : ∀ q ∈ stops.toList.filter (p < ·), here q := fun q hq =>
          hstops q (Std.ExtTreeSet.mem_toList.mp (List.mem_filter.mp hq).1)
        refine ih _ _ (fun q hq => ?_) (fun q next hn => ?_) h₁
        · obtain hq | hq := List.mem_append.mp hq
          · exact hnext q (List.mem_reverse.mp hq)
          · exact hpending q (by simp [hq])
        · rw [Steps.getElem?_insert] at hn
          split at hn
          · cases hn
            exact hnext
          · exact hsteps q next hn

theorem Upholds.iterate (hf : f.Upholds inv stop here here) {steps : Steps}
    (hsteps : steps.Among here) (viable : Std.TreeSet Position) (n : Nat) (hp : here p)
    (h : inv e) :
    Extract.Upholds inv (f.iterate stop steps viable n p) e fun _ => True := by
  induction n generalizing p e with
  | zero => exact .pure h trivial
  | succ n ih =>
      rw [Fragment.iterate]
      split
      · exact .pure h trivial
      · refine (hf.firstBuilt hp _ h).bind fun found e₁ h₁ hfound => ?_
        cases found with
        | none => exact .pure h₁ trivial
        | some built =>
            have hq := (List.mem_filter.mp (hfound built.1 built.2 rfl)).1
            rw [List.mem_reverse, Std.TreeMap.getD_eq_getD_getElem?] at hq
            have hq : here built.1 := by
              cases hnext : steps[p]? with
              | none => simp [hnext] at hq
              | some next => exact hsteps p next hnext _ (by simpa [hnext] using hq)
            exact (ih hq h₁).bind fun _ e₂ h₂ _ => .pure h₂ trivial

theorem inRepetition_upholds (hf : p ≠ stop → f.Upholds inv stop here here) (bound : Nat)
    (hp : here p) (h : inv e) :
    Extract.Upholds inv (f.inRepetition bound p stop) e fun _ => True := by
  rw [Fragment.inRepetition]
  split
  · exact .pure h trivial
  · next hne =>
      refine ((hf hne).explore bound [p] ∅ (fun q hq => List.mem_singleton.mp hq ▸ hp)
        (fun q next hn => by simp at hn) h).bind fun steps e₁ h₁ hsteps => ?_
      dsimp only
      split
      · exact (hf hne).iterate hsteps _ _ hp h₁
      · exact .pure h₁ trivial

end Repetitions
end Fragment

namespace Footing

variable {s : Session} {under : Std.TreeSet Stretch} {depth : Nat} {e : Extraction}
  {branch : Session.BranchBuilder} {p stop : Position} {item body : Rule} {items : List Rule}

/-- What asks for grounded rules only may be followed on a secure run. -/
theorem admits_secure (h : ((growing s).ideal under depth).Admits item p)
    (hgrounded : ∀ x, s.Asks item p x → x.Grounded s) :
    ((secure s).ideal under depth).Admits item p :=
  ⟨h.1, fun x hx => ⟨hgrounded x hx, (h.2 x hx).2⟩⟩

/-- A part of a rule, from positions that it asks for grounded rules from. -/
theorem fragment_upholds (hs : ((secure s).ideal under depth).Served branch)
    {here there : Position → Prop}
    (hhere : ∀ p, here p → ((secure s).ideal under depth).Admits item p)
    (hthere : ∀ p q, here p → s.Ends item p q → q ≤ stop → there q) :
    Fragment.Upholds ((secure s).Keeps under) stop here there
      ⟨s.reach item, s.build branch item⟩ where
  reach h hpaths := by
    refine (Extract.Upholds.of_yields
      (hs.reach stop h fun p hp => hhere p (hpaths p hp))).mono fun out hout q hq => ?_
    obtain ⟨hle, p, hp, hl⟩ := hout q hq
    exact hthere p q (hpaths p hp) (ideal_leads ▸ hl) hle
  build q h hp := .of_yields (Ideal.build_makes hs item _ q _ h (hhere _ hp))

theorem fragments_row (hs : ((secure s).ideal under depth).Served branch) (items : List Rule) :
    Fragment.Row ((secure s).Keeps under) stop
      (fun p => ((growing s).ideal under depth).Admits (.sequence items) p ∧
        ∀ x, s.Examines stop (.sequence items) p x → x.Grounded s) (s.fragments branch items) := by
  induction items with
  | nil => exact .nil
  | cons item items ih =>
      refine .cons (fragment_upholds hs (fun p hp => ?_) fun p q hp hends hle => ?_) ih
      · exact admits_secure (hp.1.mono fun _ => .head) fun x hx => hp.2 x (.head hx)
      · exact ⟨hp.1.rest (ideal_leads.symm ▸ hends), fun x hx => hp.2 x (.rest hends hle hx)⟩

theorem repetition_upholds (hs : ((secure s).ideal under depth).Served branch) {start : Position}
    (hne : start ≠ stop) (hadmits : ((growing s).ideal under depth).Admits (.repetition body) start)
    (hgrounded : ∀ x, s.Examines stop (.repetition body) start x → x.Grounded s) :
    Fragment.Upholds ((secure s).Keeps under) stop
      (fun p => s.Ends (.repetition body) start p ∧ p ≤ stop)
      (fun p => s.Ends (.repetition body) start p ∧ p ≤ stop)
      ⟨s.reach body, s.build branch body⟩ := by
  refine fragment_upholds hs (fun p hp => ?_) fun p q hp hends hle =>
    ⟨hp.1.again_last hends, hle⟩
  exact admits_secure (hadmits.again (ideal_leads.symm ▸ hp.1)) fun x hx =>
    hgrounded x (.iteration hne hp.1 hp.2 hx)

theorem forward_upholds {inv : Extraction → Prop} {x : Extract (Option (List Tree))} (h : inv e)
    (hx : ¬stop < p → Extract.Upholds inv x e fun _ => True) :
    Extract.Upholds inv (Session.forward p stop x) e fun _ => True := by
  unfold Session.forward
  split
  · exact .pure h trivial
  · next hnot => exact hx hnot

mutual

/-- Where all that is examined is grounded, a rule is built without any rule meeting itself. -/
theorem build_secure (hs : ((growing s).ideal under depth).Served branch)
    (hs' : ((secure s).ideal under depth).Served branch) : ∀ (rule : Rule) (e : Extraction),
    (secure s).Keeps under e → ((growing s).ideal under depth).Admits rule p →
      s.Unentangled rule p stop →
      Extract.Upholds ((secure s).Keeps under) (s.build branch rule p stop) e fun _ => True
  | .terminal tag, e, h, hadmits, _ => by
      refine .of_yields (Ideal.build_makes hs' (.terminal tag) p stop e h
        (admits_secure hadmits fun x hx => ?_))
      cases hx with
      | terminal => trivial
  | .nonterminal rule, e, h, hadmits, hall => by
      rw [Session.build]
      refine forward_upholds h fun hnot => .of_yields (hs'.nonterminal stop h
        (admits_secure hadmits fun x hx => ?_))
      cases hx with
      | nonterminal => exact hall hnot _ .nonterminal
  | .sequence items, e, h, hadmits, hall => by
      rw [Session.build]
      exact forward_upholds h fun hnot =>
        (fragments_row hs' items).inSequence ⟨hadmits, hall hnot⟩ h
  | .optional body, e, h, hadmits, hall => by
      rw [Session.build]
      refine forward_upholds h fun hnot => (build_secure hs hs' body e h
        (hadmits.mono fun _ => .optional) fun _ x hx => hall hnot x (.optional hx)).bind
          fun found e₁ h₁ _ => ?_
      cases found <;> exact .pure h₁ trivial
  | .repetition body, e, h, hadmits, hall => by
      rw [Session.build]
      refine forward_upholds h fun hnot => ensures_bind.mpr (ensures_get.mpr ?_)
      exact Fragment.inRepetition_upholds
        (fun hne => repetition_upholds hs' hne hadmits (hall hnot)) _ ⟨.stop, hnot⟩ h
  | .alternation choices, e, h, hadmits, hall => by
      rw [Session.build]
      exact forward_upholds h fun hnot =>
        buildFirst_secure hs hs' choices e h hadmits hnot (hall hnot)
  | .switch feature body, e, h, hadmits, hall => by
      rw [Session.build]
      refine forward_upholds h fun hnot => ?_
      split
      · next hon =>
          exact build_secure hs hs' body e h (hadmits.mono fun _ => .enabled hon)
            fun _ x hx => hall hnot x (.enabled hon hx)
      · exact .pure h trivial

theorem buildFirst_secure (hs : ((growing s).ideal under depth).Served branch)
    (hs' : ((secure s).ideal under depth).Served branch) : ∀ (choices : List Rule) (e : Extraction),
    (secure s).Keeps under e → ((growing s).ideal under depth).Admits (.alternation choices) p →
      ¬stop < p →
      (∀ x, s.Examines stop (.alternation choices) p x → x.Grounded s) →
        Extract.Upholds ((secure s).Keeps under) (s.buildFirst branch choices p stop) e
          fun _ => True
  | [], e, h, _, _, _ => by
      rw [Session.buildFirst]
      exact .pure h trivial
  | choice :: choices, e, h, hadmits, hnot, hall => by
      rw [Session.buildFirst]
      have hhead : ((growing s).ideal under depth).Admits choice p :=
        hadmits.mono fun _ => .choice List.mem_cons_self
      have hrest : ((growing s).ideal under depth).Admits (.alternation choices) p :=
        hadmits.mono fun _ hx => by
          cases hx with
          | choice hmem hx => exact .choice (List.mem_cons_of_mem _ hmem) hx
      -- no rule has met itself, so a choice that is not built does not lead there
      have hchoice : Extract.Upholds ((secure s).Keeps under) (s.build branch choice p stop) e
          fun found => found = none → ¬s.Ends choice p stop := by
        refine ((build_secure hs hs' choice e h hhead fun _ x hx => hall x (.first hx)).and
          (Ideal.build_makes hs choice p stop e h.growing hhead)).mono fun result e' hpost => ?_
        obtain ⟨⟨h', -⟩, -, -, -, hsettled⟩ := hpost
        refine ⟨h', fun found hfound hnone => ?_⟩
        have hmade := hsettled h'.hits
        rw [hfound, hnone] at hmade
        exact ideal_leads ▸ hmade
      refine hchoice.bind fun found e₁ h₁ hfound => ?_
      cases found with
      | some nodes => exact .pure h₁ trivial
      | none =>
          exact buildFirst_secure hs hs' choices e₁ h₁ hrest hnot fun x hx =>
            hall x (.later (hfound rfl) hx)

end

end Footing
end Multipath
