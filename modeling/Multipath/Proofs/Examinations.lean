import Multipath.Proofs.Groundwork

/-!
What the extraction of a branch asks for. It goes through one rule between two positions, so it need
not ask all that the rule does from the first one: parts of the rule are followed from where they
are reached without passing the second one, and a choice is tried only if none before it leads there
(`Session.Examines`). Where an extraction has come to its end, and no rule has met itself, all that
it examined is grounded (`Footing.build_examined`).
-/

namespace Multipath

open Search (attempt)
open Extract (ofSearch)

/-- What is asked when a rule is gone through between two positions. -/
inductive Session.Examines (s : Session) (stop : Position) : Rule → Position → Question → Prop
  | nonterminal {rule p} : Examines s stop (.nonterminal rule) p (.reference rule p)
  | head {item items p x} : s.Asks item p x → Examines s stop (.sequence (item :: items)) p x
  | rest {item items p m x} : s.Ends item p m → m ≤ stop →
      Examines s stop (.sequence items) m x → Examines s stop (.sequence (item :: items)) p x
  | optional {body p x} : Examines s stop body p x → Examines s stop (.optional body) p x
  | iteration {body p m x} : p ≠ stop → s.Ends (.repetition body) p m → m ≤ stop →
      s.Asks body m x → Examines s stop (.repetition body) p x
  | first {choice choices p x} : Examines s stop choice p x →
      Examines s stop (.alternation (choice :: choices)) p x
  | later {choice choices p x} : ¬s.Ends choice p stop →
      Examines s stop (.alternation choices) p x →
      Examines s stop (.alternation (choice :: choices)) p x
  | enabled {feature body p x} : s.grammar.isEnabled feature = true → Examines s stop body p x →
      Examines s stop (.switch feature body) p x

/-- All that is examined is grounded. -/
def Session.Unentangled (s : Session) (rule : Rule) (p stop : Position) : Prop :=
  ¬stop < p → ∀ x, s.Examines stop rule p x → x.Grounded s

theorem Ideal.Yields.and {s : Session} {i : Ideal s} {α : Type} {x : Extract α} {e : Extraction}
    {sure sure' : α → Prop} {settled settled' : Except Failure α → Prop}
    (h : i.Yields x e sure settled) (h' : i.Yields x e sure' settled') :
    i.Yields x e (fun a => sure a ∧ sure' a) fun result => settled result ∧ settled' result :=
  Ensures.mono (Ensures.and h h') fun _ _ hpost => ⟨hpost.1.1, hpost.1.2.1,
    fun a ha => ⟨hpost.1.2.2.1 a ha, hpost.2.2.2.1 a ha⟩,
    fun hc => ⟨hpost.1.2.2.2 hc, hpost.2.2.2.2 hc⟩⟩

/-- A step that fails has nothing to tell of what comes out. -/
theorem Ideal.Yields.bind_ok {s : Session} {i : Ideal s} {α β : Type} {x : Extract α}
    {f : α → Extract β} {e : Extraction} {sure : α → Prop} {settled : Except Failure α → Prop}
    {sure' post : β → Prop} (h : i.Yields x e sure settled)
    (hf : ∀ a e', i.inv e' → sure a → i.Yields (f a) e' sure' fun result =>
      ∀ b, result = .ok b → settled (.ok a) → post b) :
    i.Yields (x >>= f) e sure' fun result => ∀ b, result = .ok b → post b :=
  h.bind (fun _ _ _ heq => by cases heq) fun a e' hinv hsure =>
    (hf a e' hinv hsure).mono (fun _ => id) fun _ hall hsettled b heq => hall b heq hsettled

theorem Session.Ends.again_last {s : Session} {body : Rule} {p m q : Position}
    (h : s.Ends (.repetition body) p m) (h' : s.Ends body m q) : s.Ends (.repetition body) p q :=
  Session.ends_iff_leads.mpr ((Session.leads_of_ends h).repetition_trans
    (.again (Session.leads_of_ends h') .stop))

theorem Position.le_trans {p q r : Position} (h : p ≤ q) (h' : q ≤ r) : p ≤ r := by
  simp only [le_def, lt_def] at *
  omega

/-- Where all steps are listed, all positions are that repeating leads to up to the stop. -/
theorem Ideal.Complete.mem_of_leads {s : Session} {i : Ideal s} {body : Rule} {p m stop : Position}
    {steps : Fragment.Steps} (h : i.Complete body stop steps) (hclosed : steps.Closed)
    (hp : p ∈ steps) (hl : i.Leads (.repetition body) p m) (hle : m ≤ stop) : m ∈ steps := by
  generalize hrule : Rule.repetition body = rule at hl
  induction hl with
  | stop => exact hp
  | @again _ p m q hbody hrest _ ih =>
      cases hrule
      refine ih ?_ hle rfl
      by_cases heq : p = m
      · exact heq ▸ hp
      · have hnext := Fragment.Steps.getElem?_of_mem hp
        have hm : m ≤ stop := Position.le_trans (Ideal.Leads.upto hrest).le hle
        exact hclosed p _ hnext m (h p _ hnext m hbody (Ideal.Leads.lt_of_ne hbody heq) hm)
  | _ => cases hrule

namespace Footing

variable {s : Session} {under : Std.TreeSet Stretch} {depth : Nat} {e : Extraction}
  {branch : Session.BranchBuilder} {p stop : Position}

section Sequences
variable {item : Rule} {items : List Rule} {paths : PathSet}

/-- What is reached over was asked for. -/
theorem reach_examined (stop : Position) (h : (growing s).Keeps under e)
    (hadmits : ∀ p ∈ paths, ((growing s).ideal under depth).Admits item p) :
    ((growing s).ideal under depth).Yields (s.reach item paths stop) e
      (fun out => ∀ q ∈ out, q ≤ stop ∧ ∃ p ∈ paths, s.Ends item p q) fun result =>
        ∀ out, result = .ok out → (∀ p ∈ paths, ∀ q, s.Ends item p q → q ≤ stop → q ∈ out) ∧
          ∀ p ∈ paths, ∀ x, s.Asks item p x → x.Grounded s := by
  have hgrounds : Ensures (s.reach item paths stop) e fun result e' =>
      e'.run.stats.leftRecursionHits = 0 → ∀ out, result = .ok out →
        ∀ p ∈ paths, ∀ x, s.Asks item p x → x.Grounded s := by
    refine ensures_bind.mpr (ensures_ofSearch.mpr (Search.ensures_attempt.mpr
      ((h.kept.follow_grounds fun p hp => (hadmits p hp).1).mono fun result run' hall => ?_)))
    cases result with
    | ok out => exact ensures_pure.mpr fun hhits _ _ => hall hhits (uncut_ok out)
    | error f =>
        dsimp only
        split
        · next hf => exact ensures_pure.mpr fun hhits _ _ => hall hhits (uncut_error hf)
        · exact nofun
  refine Ensures.mono (Ensures.and (ideal_reach stop h hadmits) hgrounds) fun result e' hpost => ?_
  obtain ⟨⟨h', hcounts, hsure, hsettled⟩, hgrounds⟩ := hpost
  rw [ideal_leads] at hsure
  refine ⟨h', hcounts, hsure, fun hhits out hout => ⟨?_, hgrounds hhits out hout⟩⟩
  have hall := hsettled hhits
  rw [hout] at hall
  unfold Ideal.Gathers at hall
  rwa [ideal_leads] at hall

/-- Layers are followed one behind the other, until none is left or nothing is reached. -/
theorem layers_examined (items : List Rule) (h : (growing s).Keeps under e)
    (hadmits : ∀ p ∈ paths, ((growing s).ideal under depth).Admits (.sequence items) p) :
    ((growing s).ideal under depth).Yields (Fragment.layers stop (s.fragments branch items) paths)
      e (fun _ => True) fun result => ∀ found, result = .ok found →
        ∀ p ∈ paths, ∀ x, s.Examines stop (.sequence items) p x → x.Grounded s := by
  induction items generalizing paths e with
  | nil => exact .pure h trivial fun _ _ _ _ _ hx => nomatch hx
  | cons item items ih =>
      rw [Session.fragments, Fragment.layers]
      refine (reach_examined stop h fun p hp => (hadmits p hp).mono fun _ => .head).bind_ok
        fun next e₁ h₁ hnext => ?_
      have hadmits₁ : ∀ m ∈ next, ((growing s).ideal under depth).Admits (.sequence items) m := by
        intro m hm
        obtain ⟨-, p, hp, hends⟩ := hnext m hm
        exact (hadmits p hp).rest (ideal_leads.symm ▸ hends)
      -- what the other items ask for, they ask for from the next layer
      have hexamined {p : Position} (hp : p ∈ paths) {x : Question}
          (hall : (∀ p ∈ paths, ∀ q, s.Ends item p q → q ≤ stop → q ∈ next) ∧
            ∀ p ∈ paths, ∀ x, s.Asks item p x → x.Grounded s)
          (hrest : ∀ m ∈ next, ∀ x, s.Examines stop (.sequence items) m x → x.Grounded s)
          (hx : s.Examines stop (.sequence (item :: items)) p x) : x.Grounded s := by
        cases hx with
        | head hx => exact hall.2 p hp x hx
        | rest hends hle hx => exact hrest _ (hall.1 p hp _ hends hle) x hx
      split
      · next hempty =>
          refine .pure h₁ trivial fun _ _ hall p hp x => hexamined hp (hall next rfl) fun m hm => ?_
          rw [Std.ExtTreeSet.isEmpty_iff.mp hempty] at hm
          exact absurd hm Std.ExtTreeSet.not_mem_empty
      · refine (ih h₁ hadmits₁).bind_ok fun found e₂ h₂ _ => ?_
        exact .pure h₂ trivial fun _ _ hrest hall p hp x =>
          hexamined hp (hall next rfl) (hrest found rfl)

theorem inSequence_examined (hs : ((growing s).ideal under depth).Served branch)
    (h : (growing s).Keeps under e)
    (hadmits : ((growing s).ideal under depth).Admits (.sequence items) p) :
    ((growing s).ideal under depth).Yields
      (Fragment.inSequence (s.fragments branch items) p stop) e (fun _ => True) fun result =>
        ∀ found, result = .ok found →
          ∀ x, s.Examines stop (.sequence items) p x → x.Grounded s := by
  have hadmits' : ∀ p' ∈ ({p} : PathSet),
      ((growing s).ideal under depth).Admits (.sequence items) p' :=
    fun p' hp' => SortedSet.mem_singleton.mp hp' ▸ hadmits
  have hlayers := Ideal.layers_yields _ stop items (Ideal.fragments_serve hs items) hadmits' h
  rw [← fragments_eq] at hlayers
  rw [Fragment.inSequence]
  refine (hlayers.and (layers_examined items h hadmits')).bind_ok
    fun found e₁ h₁ hlayered => ?_
  have hp : p ∈ ({p} : PathSet) := SortedSet.mem_singleton.mpr rfl
  cases found with
  | none => exact .pure h₁ trivial fun _ _ hall => hall.2 none rfl p hp
  | some before =>
      refine (Ideal.prune_yields (hlayered.1 before rfl) h₁).bind_ok
        fun pruned e₂ h₂ haligned => ?_
      obtain ⟨viable, steps⟩ := pruned
      dsimp only
      split
      · exact (Ideal.choose_yields haligned hadmits h₂).mono (fun _ => id)
          fun _ _ _ _ _ hall => hall.2 _ rfl p hp
      · exact .pure h₂ trivial fun _ _ _ hall => hall.2 _ rfl p hp

end Sequences

section Repetitions
variable {body : Rule} {start : Position}

/-- From every position that is listed the body was followed. -/
theorem explore_examined (hadmits : ((growing s).ideal under depth).Admits (.repetition body) start)
    (n : Nat) (pending : List Position) (steps : Fragment.Steps)
    (hpending : ∀ p ∈ pending, s.Ends (.repetition body) start p) (h : (growing s).Keeps under e) :
    ((growing s).ideal under depth).Yields
      (Fragment.explore ⟨s.reach body, s.build branch body⟩ stop n pending steps) e
      (fun _ => True) fun result => ∀ steps', result = .ok steps' →
        (∀ p ∈ steps, ∀ x, s.Asks body p x → x.Grounded s) →
          ∀ p ∈ steps', ∀ x, s.Asks body p x → x.Grounded s := by
  induction n generalizing pending steps e with
  | zero =>
      refine .pure h trivial fun steps' heq => ?_
      cases heq
      exact id
  | succ n ih =>
      rw [Fragment.explore]
      obtain ⟨hnil, -⟩ | ⟨front, p, rest, rfl, hdrop, -, -⟩ :=
        dropWhile_cases steps.contains pending
      · rw [hnil]
        refine .pure h trivial fun steps' heq => ?_
        cases heq
        exact id
      · rw [hdrop]
        have hp := hpending p (by simp)
        have hmem {p' : Position} (hp' : p' ∈ ({p} : PathSet)) : p' = p :=
          SortedSet.mem_singleton.mp hp'
        refine (reach_examined stop h fun p' hp' => hmem hp' ▸
          hadmits.again (ideal_leads.symm ▸ hp)).bind_ok fun stops e₁ h₁ hstops => ?_
        refine (ih _ _ (fun q hq => ?_) h₁).mono (fun _ => id)
          fun result hresult steps' hsteps' hall hknown => ?_
        · obtain hq | hq := List.mem_append.mp hq
          · rw [List.mem_reverse, List.mem_filter, Std.ExtTreeSet.mem_toList] at hq
            obtain ⟨-, p', hp', hends⟩ := hstops q hq.1
            rw [hmem hp'] at hends
            exact hp.again_last hends
          · exact hpending q (by simp [hq])
        · refine hresult steps' hsteps' fun m hm => ?_
          obtain rfl | hm := Fragment.Steps.mem_insert.mp hm
          · exact (hall stops rfl).2 m (SortedSet.mem_singleton.mpr rfl)
          · exact hknown m hm

theorem inRepetition_examined (hs : ((growing s).ideal under depth).Served branch)
    (h : (growing s).Keeps under e)
    (hadmits : ((growing s).ideal under depth).Admits (.repetition body) start) :
    ((growing s).ideal under depth).Yields
      (Fragment.inRepetition ⟨s.reach body, s.build branch body⟩ (s.pathBound e.run) start stop) e
      (fun _ => True) fun result => ∀ found, result = .ok found →
        ∀ x, s.Examines stop (.repetition body) start x → x.Grounded s := by
  rw [Fragment.inRepetition]
  split
  · next heq =>
      refine .pure h trivial fun _ _ x hx => ?_
      cases hx with
      | iteration hne => exact absurd heq hne
  · have hserves := Ideal.fragments_serve hs [body] body List.mem_cons_self
    have hstart : ∀ p ∈ [start], s.Ends (.repetition body) start p :=
      fun p hp => List.mem_singleton.mp hp ▸ .stop
    have hsteps : ((growing s).ideal under depth).Yields
        (Fragment.explore ⟨s.reach body, s.build branch body⟩ stop (s.pathBound e.run) [start] ∅) e
        (((growing s).ideal under depth).Explored body start) fun result =>
          ∀ steps, result = .ok steps →
            ∀ x, s.Examines stop (.repetition body) start x → x.Grounded s := by
      refine Ensures.mono (Ensures.and ((Ideal.explore_yields hserves hadmits _ [start] ∅
        (ideal_leads.symm ▸ hstart) Ideal.explored_empty h).and
        (explore_examined hadmits _ [start] ∅ hstart h)) (hs.explores stop h hadmits.1))
        fun result e' hpost => ?_
      obtain ⟨⟨h', hcounts, hsure, hsettled⟩, hcloses⟩ := hpost
      refine ⟨h', hcounts, fun steps heq => (hsure steps heq).1, fun hhits steps heq x hx => ?_⟩
      obtain ⟨hcomplete, hgrounded⟩ := hsettled hhits
      obtain ⟨hmem, hclosed⟩ := hcloses hhits steps heq
      rw [heq] at hcomplete
      cases hx with
      | @iteration _ _ m _ hne hends hle hasks =>
          have hm := (hcomplete Ideal.complete_empty).mem_of_leads hclosed hmem
            (ideal_leads.symm ▸ hends) hle
          exact hgrounded steps heq (by simp) m hm x hasks
    refine hsteps.bind_ok fun steps e₁ h₁ hexplored => ?_
    dsimp only
    split
    · have hbound : (steps.behind start).length ≤ steps.size := by
        rw [← Std.TreeMap.length_keys]
        exact List.length_filter_le _ _
      exact (Ideal.iterate_yields hserves hadmits hexplored steps.size .stop hbound h₁).mono
        (fun _ => id) fun _ _ _ _ hall => hall steps rfl
    · exact .pure h₁ trivial fun _ _ hall => hall steps rfl

end Repetitions

section Building
variable {rule : RuleId}

theorem buildNonterminal_examined (hbranch : (growing s).Branches under depth branch)
    (h : (growing s).Keeps under e)
    (hadmits : ((growing s).ideal under depth).Admits (.nonterminal rule) p) :
    ((growing s).ideal under depth).Yields (s.buildNonterminal branch rule p stop) e
      (fun _ => True) fun result => ∀ found, result = .ok found → s.Grounded ⟨p, rule⟩ := by
  have hderive : ((growing s).ideal under depth).Yields (ofSearch (attempt (s.derive rule p))) e
      (fun _ => True) fun result => ∀ found, result = .ok found → s.Grounded ⟨p, rule⟩ := by
    refine ensures_ofSearch.mpr (Search.ensures_attempt.mpr (((h.kept.derive hadmits.1).and
      (h.kept.derive_grounds hadmits.1)).mono fun result run' hpost => ?_))
    obtain ⟨⟨hkept, hgrows, -⟩, hall⟩ := hpost
    have h' := h.search hkept hgrows
    have hcounts (hhits : run'.stats.leftRecursionHits = 0) : e.run.stats.leftRecursionHits = 0 :=
      Nat.le_zero.mp (hhits ▸ hgrows.hits)
    cases result with
    | ok id =>
        exact ⟨h', hcounts, fun _ _ => trivial, fun hhits _ _ => hall hhits (uncut_ok id)⟩
    | error f =>
        dsimp only
        split
        · next hf =>
            exact ⟨h', hcounts, fun _ _ => trivial, fun hhits _ _ => hall hhits (uncut_error hf)⟩
        · exact ⟨h', hcounts, nofun, fun _ => nofun⟩
  refine hderive.bind_ok fun found e₁ h₁ _ => ?_
  cases found with
  | error f => exact .pure h₁ trivial fun _ _ hall => hall _ rfl
  | ok id =>
      refine ensures_bind.mpr (ensures_ofSearch.mpr (Search.ensures_outputOf.mpr ?_))
      dsimp only
      split
      · refine Ideal.Yields.bind_ok (hbranch rule p stop e₁ h₁ hadmits.1 trivial
          ((hadmits.2 _ .nonterminal).2 rule p rfl)) fun found e₂ h₂ _ => ?_
        exact .pure h₂ trivial fun _ _ _ hall => hall _ rfl
      · exact Ideal.Yields.pure h₁ trivial fun _ _ hall => hall _ rfl

/-- Against the direction of the text nothing is examined. -/
theorem forward_examined {rule : Rule} {x : Extract (Option (List Tree))}
    (h : (growing s).Keeps under e)
    (hx : ¬stop < p → ((growing s).ideal under depth).Yields x e (fun _ => True) fun result =>
      ∀ found, result = .ok found → ∀ y, s.Examines stop rule p y → y.Grounded s) :
    ((growing s).ideal under depth).Yields (Session.forward p stop x) e (fun _ => True)
      fun result => ∀ found, result = .ok found → s.Unentangled rule p stop := by
  unfold Session.forward
  split
  · next hlt => exact .pure h trivial fun _ _ hnot => absurd hlt hnot
  · next hnot =>
      exact (hx hnot).mono (fun _ => id) fun _ hall found heq _ => hall found heq

mutual

/-- Where a rule was built to the end, all that it examined is grounded. -/
theorem build_examined (hs : ((growing s).ideal under depth).Served branch)
    (hbranch : (growing s).Branches under depth branch) : ∀ (rule : Rule) (p : Position)
    (e : Extraction), (growing s).Keeps under e → ((growing s).ideal under depth).Admits rule p →
      ((growing s).ideal under depth).Yields (s.build branch rule p stop) e (fun _ => True)
        fun result => ∀ found, result = .ok found → s.Unentangled rule p stop
  | .terminal tag, p, e, h, hadmits => by
      refine (Ideal.build_makes hs (.terminal tag) p stop e h hadmits).mono (fun _ => id)
        fun _ _ _ _ _ x hx => ?_
      cases hx
  | .nonterminal rule, p, e, h, hadmits => by
      rw [Session.build]
      refine forward_examined h fun _ => (buildNonterminal_examined hbranch h hadmits).mono
        (fun _ => id) fun _ hall found heq x hx => ?_
      cases hx with
      | nonterminal => exact hall found heq
  | .sequence items, p, e, h, hadmits => by
      rw [Session.build]
      exact forward_examined h fun _ => inSequence_examined hs h hadmits
  | .optional body, p, e, h, hadmits => by
      rw [Session.build]
      refine forward_examined h fun hnot => (build_examined hs hbranch body p e h
        (hadmits.mono fun _ => .optional)).bind_ok fun found e₁ h₁ _ => ?_
      have htold (hall : ∀ found', Except.ok (ε := Failure) found = .ok found' →
          s.Unentangled body p stop) (x : Question) (hx : s.Examines stop (.optional body) p x) :
          x.Grounded s := by
        cases hx with
        | optional hx => exact hall found rfl hnot x hx
      cases found <;> exact .pure h₁ trivial fun _ _ hall => htold hall
  | .repetition body, p, e, h, hadmits => by
      rw [Session.build]
      exact forward_examined h fun _ => ensures_bind.mpr (ensures_get.mpr
        (inRepetition_examined hs h hadmits))
  | .alternation choices, p, e, h, hadmits => by
      rw [Session.build]
      exact forward_examined h fun hnot => buildFirst_examined hs hbranch choices p e hnot h hadmits
  | .switch feature body, p, e, h, hadmits => by
      rw [Session.build]
      refine forward_examined h fun hnot => ?_
      split
      · next hon =>
          refine (build_examined hs hbranch body p e h (hadmits.mono fun _ => .enabled hon)).mono
            (fun _ => id) fun _ hall found heq x hx => ?_
          cases hx with
          | enabled _ hx => exact hall found heq hnot x hx
      · next hoff =>
          refine .pure h trivial fun _ _ x hx => ?_
          cases hx with
          | enabled hon _ => exact absurd hon hoff

theorem buildFirst_examined (hs : ((growing s).ideal under depth).Served branch)
    (hbranch : (growing s).Branches under depth branch) : ∀ (choices : List Rule) (p : Position)
    (e : Extraction), ¬stop < p → (growing s).Keeps under e →
      ((growing s).ideal under depth).Admits (.alternation choices) p →
      ((growing s).ideal under depth).Yields (s.buildFirst branch choices p stop) e
        (fun _ => True) fun result => ∀ found, result = .ok found →
          ∀ x, s.Examines stop (.alternation choices) p x → x.Grounded s
  | [], p, e, _, h, _ => by
      rw [Session.buildFirst]
      refine .pure h trivial fun _ _ x hx => ?_
      cases hx
  | choice :: choices, p, e, hnot, h, hadmits => by
      rw [Session.buildFirst]
      have hhead : ((growing s).ideal under depth).Admits choice p :=
        hadmits.mono fun _ => .choice List.mem_cons_self
      have hrest : ((growing s).ideal under depth).Admits (.alternation choices) p :=
        hadmits.mono fun _ hx => by
          cases hx with
          | choice hmem hx => exact .choice (List.mem_cons_of_mem _ hmem) hx
      refine ((build_examined hs hbranch choice p e h hhead).and
        (Ideal.build_makes hs choice p stop e h hhead)).bind_ok fun found e₁ h₁ _ => ?_
      cases found with
      | some nodes =>
          refine .pure h₁ trivial fun _ _ hall x hx => ?_
          cases hx with
          | first hx => exact hall.1 _ rfl hnot x hx
          | later hnever _ => exact absurd (ideal_leads ▸ hall.2.1) hnever
      | none =>
          refine (buildFirst_examined hs hbranch choices p e₁ hnot h₁ hrest).mono (fun _ => id)
            fun _ hlater found heq hall x hx => ?_
          cases hx with
          | first hx => exact hall.1 _ rfl hnot x hx
          | later _ hx => exact hlater found heq x hx

end

end Building

end Footing
end Multipath
