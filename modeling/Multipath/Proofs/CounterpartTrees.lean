import Multipath.Proofs.CounterpartFragments
import Multipath.Proofs.Trees

/-!
Trees extracted in a session that goes along with another one: the other's trees, at the positions
that these are moved to. Where rules are extended by idle references, these build nothing. So the
two parse alike. A parse that succeeds in the one session succeeds in the other with the same
tree; if nothing is hidden the outcomes are the same in all, failures and counters included.
-/

namespace Multipath

open Search (attempt outputOf readToken)
open Extract (ofSearch)

/-- That no start rule can be selected is not said of any position. -/
theorem Grammar.relocate_of_selectStart (σ : Relocation) {g : Grammar} {conditions : Conditions}
    {error : ParseError} (h : g.selectStart conditions = .error error) :
    error.relocate σ = error := by
  unfold selectStart at h
  split at h <;> cases h <;> rfl

namespace Counterpart

variable {s s' : Session} {k : Counterpart s s'} {e e' : Extraction} {here : Position → Prop}

variable (k) in
/-- From positions of some kind, a rule asks only for what the two answer alike. -/
structure Shares (here : Position → Prop) (rule : Rule) : Prop where
  place : ∀ p, here p → s.source.IsPlace p
  switched : SwitchedAlike s.grammar s'.grammar rule
  asks : ∀ p, here p → ∀ r m, s.Asks rule p (.reference r m) → k.answered s.maxDepth r m

/-- Where a rule leads to from positions of some kind. -/
def Beyond (s : Session) (here : Position → Prop) (rule : Rule) (q : Position) : Prop :=
  ∃ p, here p ∧ s.Ends rule p q

namespace Shares

variable {item body c : Rule} {items choices : List Rule} {feature : String}

theorem head (h : k.Shares here (.sequence (item :: items))) : k.Shares here item :=
  ⟨h.place, h.switched.of_sequence (by simp), fun p hp r m hasks => h.asks p hp r m (.head hasks)⟩

theorem rest (h : k.Shares here (.sequence (item :: items))) :
    k.Shares (Beyond s here item) (.sequence items) where
  place q hq := by
    obtain ⟨p, hp, hends⟩ := hq
    exact hends.isPlace (h.place p hp)
  switched f b hb := h.switched f b (by simp [Rule.parts, Rule.partsAll] at hb ⊢; exact .inr hb)
  asks q hq r m hasks := by
    obtain ⟨p, hp, hends⟩ := hq
    exact h.asks p hp r m (.rest (Session.ends_iff_leads.mp hends) hasks)

theorem optional (h : k.Shares here (.optional body)) : k.Shares here body :=
  ⟨h.place, h.switched.of_optional, fun p hp r m hasks => h.asks p hp r m (.optional hasks)⟩

theorem repetition (h : k.Shares here (.repetition body)) :
    k.Shares (Beyond s here (.repetition body)) body where
  place q hq := by
    obtain ⟨p, hp, hends⟩ := hq
    exact hends.isPlace (h.place p hp)
  switched := h.switched.of_repetition
  asks q hq r m hasks := by
    obtain ⟨p, hp, hends⟩ := hq
    exact h.asks p hp r m (.iteration (Session.ends_iff_leads.mp hends) hasks)

theorem choice (h : k.Shares here (.alternation choices)) (hmem : c ∈ choices) :
    k.Shares here c :=
  ⟨h.place, h.switched.of_alternation hmem, fun p hp r m hasks =>
    h.asks p hp r m (.choice hmem hasks)⟩

theorem switch (h : k.Shares here (.switch feature body))
    (hon : s.grammar.isEnabled feature = true) : k.Shares here body :=
  ⟨h.place, h.switched.of_switch.2, fun p hp r m hasks => h.asks p hp r m (.enabled hon hasks)⟩

end Shares

section Building
variable {p q : Position}

theorem follow_returns (s : Session) (rule : Rule) (paths : PathSet) :
    Keeps Run.Returns (attempt (s.follow rule paths)) :=
  .attempt fun run => Session.ensures_follow.mpr
    (Session.evaluateWithin_keeps Run.returns_enclosing _ rule paths run)

theorem derive_returns (s : Session) (rule : RuleId) (p : Position) :
    Keeps Run.Returns (attempt (s.derive rule p)) :=
  .attempt fun run => Session.ensures_derive.mpr
    (Session.deriveWithin_keeps Run.returns_enclosing (s := s) _ rule p run)

theorem reach_alike {rule : Rule} (h : k.Shares here rule) {paths : PathSet} (stop : Position)
    (hne : paths ≠ ∅) (hpaths : ∀ p ∈ paths, here p) (he : k.Extractions e e') :
    Agrees k.extracting (Moved k.σ fun out => ∀ q ∈ out, Beyond s here rule q ∧ q ≤ stop)
      (s.reach rule paths stop) (s'.reach rule (paths.relocate k.σ) (k.σ.move stop)) e e' := by
  have hfollow := follow_alike rule h.switched hne (fun p hp => h.place p (hpaths p hp))
    (fun p hp r m hasks => he.levels.symm ▸ h.asks p (hpaths p hp) r m hasks) he.run
  refine (ofSearch_alike he (follow_returns s rule paths) hfollow.attempt).bind
    fun result result' _ _ he halike => ?_
  cases halike with
  | error _ => exact .pure he ⟨PathSet.relocate_empty.symm, by simp⟩
  | @ok stops _ hmoved =>
      obtain ⟨rfl, -, hstops⟩ := hmoved
      refine .pure he ⟨?_, fun q hq => ?_⟩
      · exact (PathSet.relocate_filter fun p _ => by simp only [Relocation.move_le]).symm
      · obtain ⟨hq, hle⟩ := SortedSet.mem_filter.mp hq
        obtain ⟨-, p, hp, hends⟩ := hstops q hq
        exact ⟨⟨p, hpaths p hp, hends⟩, by simpa using hle⟩

variable (k) in
/-- Branches built alike. -/
def BranchesAlike (branch branch' : Session.BranchBuilder) : Prop :=
  ∀ r p q e e', k.answered s.maxDepth r p → s.source.IsPlace p → k.Extractions e e' →
    Agrees k.extracting (fun b b' => b' = b.map (·.relocate k.σ)) (branch r p q)
      (branch' r (k.σ.move p) (k.σ.move q)) e e'

theorem forward_alike {x y : Extract (Option (List Tree))} (he : k.Extractions e e')
    (h : p ≤ q → Agrees k.extracting (fun ts ts' => ts' = relocateTrees k.σ ts) x y e e') :
    Agrees k.extracting (fun ts ts' => ts' = relocateTrees k.σ ts) (Session.forward p q x)
      (Session.forward (k.σ.move p) (k.σ.move q) y) e e' := by
  unfold Session.forward
  simp only [Relocation.move_lt]
  split
  · exact .pure he rfl
  · next hle => exact h hle

theorem nothing_alike (σ : Relocation) (p q : Position) :
    Session.nothing (σ.move p) (σ.move q) = relocateTrees σ (Session.nothing p q) := by
  unfold Session.nothing
  simp only [Relocation.move_inj]
  split <;> rfl

theorem buildTerminal_alike (tag : TagId) (hp : s.source.IsPlace p) (he : k.Extractions e e') :
    Agrees k.extracting (fun ts ts' => ts' = relocateTrees k.σ ts) (s.buildTerminal tag p q)
      (s'.buildTerminal tag (k.σ.move p) (k.σ.move q)) e e' := by
  have hread : Agrees k.comparison (fun result result' => result' = relocateRead k.σ result)
      (readToken s.source p) (readToken s'.source (k.σ.move p)) e.run e'.run := by
    refine (he.run.readToken hp).mono fun result' after' hpost _ => hpost.mono ?_
    rintro result after ⟨hruns, rfl, rfl⟩
    exact ⟨hruns, .ok rfl⟩
  have hreturns : Keeps Run.Returns (readToken s.source p) := fun run =>
    Search.ensures_readToken.mpr ((Run.returns_enclosing (s := s)).lexer run _)
  refine (ofSearch_alike he hreturns hread).bind fun result _ _ _ he heq => ?_
  subst heq
  cases result with
  | error _ => exact .pure he rfl
  | ok t =>
      have hmatch : ((t.relocate k.σ).hasTag tag && (t.relocate k.σ).span.stop = k.σ.move q) =
          (t.hasTag tag && t.span.stop = q) := by
        simp only [Token.relocate, Span.relocate, Relocation.move_inj]
        rfl
      dsimp only [relocateRead]
      rw [hmatch]
      split
      · refine .pure he ?_
        rw [k.lexicon_eq]
        rfl
      · exact .pure he rfl

theorem buildNonterminal_alike {branch branch' : Session.BranchBuilder}
    (hbranch : k.BranchesAlike branch branch') {r : RuleId} (hr : k.answered s.maxDepth r p)
    (hp : s.source.IsPlace p) (he : k.Extractions e e') :
    Agrees k.extracting (fun ts ts' => ts' = relocateTrees k.σ ts)
      (s.buildNonterminal branch r p q)
      (s'.buildNonterminal branch' r (k.σ.move p) (k.σ.move q)) e e' := by
  have hderive := derive_alike (he.levels.symm ▸ hr) hp he.run
  refine (ofSearch_alike he (derive_returns s r p) hderive.attempt).bind
    fun result result' _ _ he halike => ?_
  cases halike with
  | error _ => exact .pure he rfl
  | @ok _ id heq =>
      obtain rfl := heq
      have houtput : Agrees k.comparison (fun out out' => out' = out.relocate k.σ) (outputOf id)
          (outputOf id) _ _ := Search.ensures_outputOf.mpr fun _ =>
        Search.ensures_outputOf.mpr ⟨he.run, .ok (by rw [he.run.arena, Arena.output_relocate])⟩
      refine (ofSearch_alike he (.outputOf (Run.returns_enclosing (s := s)).toSteady id)
        houtput).bind fun out _ _ _ he heq => ?_
      subst heq
      simp only [PathSet.move_mem_relocate]
      split
      · refine (hbranch r p q _ _ hr hp he).bind fun b _ _ _ he heq => .pure he ?_
        subst heq
        cases b with
        | none => rfl
        | some b => simp [relocateTrees, Branch.tree_relocate]
      · exact .pure he rfl

section Fragments
variable {branch branch' : Session.BranchBuilder}

mutual

/-- Every rule is built as its counterpart. -/
theorem build_alike (hbranch : k.BranchesAlike branch branch') :
    ∀ (rule : Rule) {here : Position → Prop} {p : Position} (q : Position) {e e' : Extraction},
      k.Shares here rule → here p → k.Extractions e e' →
      Agrees k.extracting (fun ts ts' => ts' = relocateTrees k.σ ts) (s.build branch rule p q)
        (s'.build branch' rule (k.σ.move p) (k.σ.move q)) e e'
  | .terminal tag, here, p, q, e, e', h, hp, he => by
      rw [Session.build, Session.build]
      exact forward_alike he fun _ => buildTerminal_alike tag (h.place p hp) he
  | .nonterminal r, here, p, q, e, e', h, hp, he => by
      rw [Session.build, Session.build]
      exact forward_alike he fun _ =>
        buildNonterminal_alike hbranch (h.asks p hp r p .nonterminal) (h.place p hp) he
  | .sequence items, here, p, q, e, e', h, hp, he => by
      rw [Session.build, Session.build]
      exact forward_alike he fun hle =>
        inSequence_alike (fragments_alike hbranch items h) hp hle he
  | .optional body, here, p, q, e, e', h, hp, he => by
      rw [Session.build, Session.build]
      refine forward_alike he fun _ => ?_
      refine (build_alike hbranch body q h.optional hp he).bind fun ts _ _ _ he heq => ?_
      subst heq
      cases ts with
      | some nodes => exact .pure he rfl
      | none => exact .pure he (nothing_alike _ _ _)
  | .repetition body, here, p, q, e, e', h, hp, he => by
      rw [Session.build, Session.build]
      refine forward_alike he fun _ => ?_
      have hbound : s.source.length + 1 ≤ s.pathBound e.run := by
        unfold Session.pathBound
        omega
      have hbound' : s.source.length + 1 ≤ s'.pathBound e'.run := by
        have := k.length_eq
        unfold Session.pathBound
        omega
      refine Agrees.get ?_
      have hbody : k.Goes (Beyond s here (.repetition body)) (Beyond s here (.repetition body))
          ⟨s.reach body, s.build branch body⟩ ⟨s'.reach body, s'.build branch' body⟩ := by
        refine ⟨fun stop hne hpaths he => ?_, fun q hp he =>
          build_alike hbranch body q h.repetition hp he⟩
        refine (reach_alike h.repetition stop hne hpaths he).mono fun out out' hmoved =>
          ⟨hmoved.1, fun q hq => ⟨?_, (hmoved.2 q hq).2⟩⟩
        obtain ⟨m, ⟨p, hp, hends⟩, hlast⟩ := (hmoved.2 q hq).1
        exact ⟨p, hp, Session.ends_iff_leads.mpr ((Session.ends_iff_leads.mp hends).repetition_trans
          (.again (Session.ends_iff_leads.mp hlast) .stop))⟩
      exact hbody.inRepetition (fun m hm => h.repetition.place m hm) hbound hbound'
        ⟨p, hp, .stop⟩ he
  | .alternation choices, here, p, q, e, e', h, hp, he => by
      rw [Session.build, Session.build]
      exact forward_alike he fun _ =>
        buildFirst_alike hbranch choices q (fun choice hmem => h.choice hmem) hp he
  | .switch feature body, here, p, q, e, e', h, hp, he => by
      rw [Session.build, Session.build, ← h.switched.of_switch.1]
      refine forward_alike he fun _ => ?_
      split
      · next hon => exact build_alike hbranch body q (h.switch hon) hp he
      · exact .pure he (nothing_alike _ _ _)

theorem buildFirst_alike (hbranch : k.BranchesAlike branch branch') :
    ∀ (choices : List Rule) {here : Position → Prop} {p : Position} (q : Position)
      {e e' : Extraction}, (∀ choice ∈ choices, k.Shares here choice) → here p →
      k.Extractions e e' →
      Agrees k.extracting (fun ts ts' => ts' = relocateTrees k.σ ts)
        (s.buildFirst branch choices p q)
        (s'.buildFirst branch' choices (k.σ.move p) (k.σ.move q)) e e'
  | [], here, p, q, e, e', _, _, he => by
      rw [Session.buildFirst, Session.buildFirst]
      exact .pure he rfl
  | choice :: choices, here, p, q, e, e', h, hp, he => by
      rw [Session.buildFirst, Session.buildFirst]
      refine (build_alike hbranch choice q (h choice (by simp)) hp he).bind
        fun ts _ _ _ he heq => ?_
      subst heq
      cases ts with
      | some nodes => exact .pure he rfl
      | none => exact buildFirst_alike hbranch choices q (fun c hc => h c (by simp [hc])) hp he

theorem fragments_alike (hbranch : k.BranchesAlike branch branch') :
    ∀ (items : List Rule) {here : Position → Prop}, k.Shares here (.sequence items) →
      k.Fragments here (s.fragments branch items) (s'.fragments branch' items)
  | [], here, _ => by
      rw [Session.fragments, Session.fragments]
      exact .nil
  | item :: items, here, h => by
      rw [Session.fragments, Session.fragments]
      have hgoes : k.Goes here (Beyond s here item) ⟨s.reach item, s.build branch item⟩
          ⟨s'.reach item, s'.build branch' item⟩ :=
        ⟨fun stop hne hpaths he => reach_alike h.head stop hne hpaths he,
          fun q hp he => build_alike hbranch item q h.head hp he⟩
      exact .cons hgoes (fragments_alike hbranch items h.rest)

end

/-- An optional reference to a missing rule is idle. -/
theorem idle_of_misses (hpos : 0 < s.maxDepth) {r : RuleId}
    (hmiss : ∀ p, here p → s.source.IsPlace p ∧ s.Misses s' k.hidden r p) :
    k.Idle here ⟨s'.reach (.optional (.nonterminal r)),
      s'.build branch' (.optional (.nonterminal r))⟩ where
  reach {paths stop e e'} hpaths he := by
    have hlevels : 0 < s'.maxDepth - e'.run.frames.length := by
      rw [he.run.depth_eq, he.levels]
      exact hpos
    have hfollow : Ensures (s'.follow (.optional (.nonterminal r)) (paths.relocate k.σ)) e'.run
        fun result after' => k.Runs e.run after' ∧ result = .ok (paths.relocate k.σ) :=
      Session.ensures_follow.mpr (evaluate_idle (deriveWithin_passes hlevels)
        (fun p hp => hmiss p (hpaths p hp).1) he.run)
    have hattempt : Ensures (attempt (s'.follow (.optional (.nonterminal r))
        (paths.relocate k.σ))) e'.run fun result after' =>
          k.Runs e.run after' ∧ result = .ok (.ok (paths.relocate k.σ)) :=
      Search.ensures_attempt.mpr (hfollow.mono fun result after' hpost => by
        obtain ⟨hruns, rfl⟩ := hpost
        exact ⟨hruns, rfl⟩)
    refine ensures_bind.mpr ((ofSearch_aside he hattempt).mono fun result after' hpost => ?_)
    obtain ⟨he, rfl⟩ := hpost
    refine ensures_pure.mpr ⟨he, congrArg Except.ok ?_⟩
    refine Std.ExtTreeSet.ext_mem fun q => SortedSet.mem_filter.trans (and_iff_left_of_imp ?_)
    intro hq
    obtain ⟨p, hp, rfl⟩ := PathSet.mem_relocate.mp hq
    simpa [Relocation.move_le] using (hpaths p hp).2
  build {p e e'} hp he := by
    have hlevels : 0 < s'.maxDepth - e'.run.frames.length := by
      rw [he.run.depth_eq, he.levels]
      exact hpos
    obtain ⟨hplace, hmiss⟩ := hmiss p hp
    have hderive : Ensures (attempt (s'.derive r (k.σ.move p))) e'.run fun result after' =>
        k.Runs e.run after' ∧ ∃ f, result = .ok (.error f) :=
      Search.ensures_attempt.mpr (Session.ensures_derive.mpr
        ((deriveWithin_fails hlevels hmiss hplace he.run).mono fun result after' hpost => by
          obtain ⟨hruns, f, rfl, hf⟩ := hpost
          dsimp only
          rw [if_pos hf]
          exact ⟨hruns, f, rfl⟩))
    have hforward : ¬k.σ.move p < k.σ.move p := Position.le_refl _
    dsimp only
    rw [Session.build, Session.forward, if_neg hforward, Session.build, Session.forward,
      if_neg hforward]
    refine ensures_bind.mpr (ensures_bind.mpr (ensures_ofSearch.mpr (hderive.mono
      fun result after' hpost => ?_)))
    obtain ⟨hruns, f, rfl⟩ := hpost
    refine ensures_pure.mpr (ensures_pure.mpr ⟨he.withRun hruns he.frames, ?_⟩)
    rw [Session.nothing, if_pos rfl]

/-- The fragments of a rule with an idle reference more. -/
theorem fragments_extended (hbranch : k.BranchesAlike branch branch') (hpos : 0 < s.maxDepth)
    {r : RuleId} {back : List Rule} (hback : back ≠ []) (front : List Rule)
    {here : Position → Prop} (h : k.Shares here (.sequence (front ++ back)))
    (hmiss : ∀ p m, here p → s.Ends (.sequence front) p m → s.Misses s' k.hidden r m) :
    k.Fragments here (s.fragments branch (front ++ back))
      (s'.fragments branch' (front ++ .optional (.nonterminal r) :: back)) := by
  induction front generalizing here with
  | nil =>
      rw [List.nil_append, List.nil_append, Session.fragments.eq_def s']
      refine .idle (idle_of_misses hpos fun p hp => ⟨h.place p hp, hmiss p p hp .nil⟩) ?_
        (fragments_alike hbranch back h)
      rw [fragments_eq]
      simpa using hback
  | cons item front ih =>
      rw [List.cons_append, List.cons_append, Session.fragments, Session.fragments]
      have hgoes : k.Goes here (Beyond s here item) ⟨s.reach item, s.build branch item⟩
          ⟨s'.reach item, s'.build branch' item⟩ :=
        ⟨fun stop hne hpaths he => reach_alike h.head stop hne hpaths he,
          fun q hp he => build_alike hbranch item q h.head hp he⟩
      refine .cons hgoes (ih h.rest fun m q hm hends => ?_)
      obtain ⟨p, hp, hitem⟩ := hm
      exact hmiss p q hp (.cons hitem hends)

/-- The bodies of a rule are built alike. -/
theorem buildBody_alike (hbranch : k.BranchesAlike branch branch') {r : RuleId}
    (hr : k.answered s.maxDepth r p) (hp : s.source.IsPlace p) (q : Position)
    (he : k.Extractions e e') :
    Agrees k.extracting (fun ts ts' => ts' = relocateTrees k.σ ts)
      (match s.grammar.rule? r with
        | some definition => s.build branch definition.body p q
        | none => pure none)
      (match s'.grammar.rule? r with
        | some definition => s'.build branch' definition.body (k.σ.move p) (k.σ.move q)
        | none => pure none) e e' := by
  obtain ⟨hdef, hdef'⟩ | ⟨d, d', hdef, hdef', hbody⟩ :=
    k.body (k.deeper (Nat.le_succ s.maxDepth) hr) hp
  · rw [hdef, hdef']
    exact .pure he rfl
  · rw [hdef, hdef']
    dsimp only
    have hplace : ∀ m, m = p → s.source.IsPlace m := fun m hm => hm ▸ hp
    generalize d.body = body at hbody
    generalize d'.body = body' at hbody
    cases hbody with
    | same hswitched hasks =>
        have hshares : k.Shares (· = p) body := ⟨hplace, hswitched, fun m hm => hm ▸ hasks⟩
        exact build_alike hbranch body q hshares rfl he
    | @idle front back _ hpos hback hswitched hasks hmiss =>
        have hshares : k.Shares (· = p) (.sequence (front ++ back)) :=
          ⟨hplace, hswitched, fun m hm => hm ▸ hasks⟩
        rw [Session.build, Session.build]
        exact forward_alike he fun hle => inSequence_alike
          (fragments_extended hbranch hpos hback front hshares fun m q hm => hm ▸ hmiss q) rfl hle
          he

end Fragments

section Branches

theorem reuse_alike {x : Stretch} {fresh fresh' : Extract (Option Branch)}
    (he : k.Extractions e e')
    (hfresh : Agrees k.extracting (fun b b' => b' = b.map (·.relocate k.σ)) fresh fresh' e e') :
    Agrees k.extracting (fun b b' => b' = b.map (·.relocate k.σ)) (Session.reuse x fresh)
      (Session.reuse (x.relocate k.σ) fresh') e e' := by
  refine Agrees.get ?_
  rw [he.built x]
  cases e.built[x]? with
  | some b => exact .pure he rfl
  | none =>
      have hactive : e'.active.contains (x.relocate k.σ) = e.active.contains x := by
        rw [Bool.eq_iff_iff, ← Std.TreeSet.mem_iff_contains, ← Std.TreeSet.mem_iff_contains,
          he.active]
      dsimp only [Option.map_none]
      rw [hactive]
      split
      · exact .pure he rfl
      · exact hfresh

theorem Extractions.enter (h : k.Extractions e e') (x : Stretch) :
    k.Extractions (e.enter x) (e'.enter (x.relocate k.σ)) where
  run := h.run
  frames := h.frames
  active y := by
    simp only [Extraction.enter, Std.TreeSet.mem_insert, Std.LawfulEqOrd.compare_eq_iff_eq,
      Stretch.relocate_inj, h.active]
  built := h.built

theorem Extractions.leave (h : k.Extractions e e') (x : Stretch) :
    k.Extractions (e.leave x) (e'.leave (x.relocate k.σ)) where
  run := h.run
  frames := h.frames
  active y := by
    simp only [Extraction.leave, Std.TreeSet.mem_erase, ne_eq, Std.LawfulEqOrd.compare_eq_iff_eq,
      Stretch.relocate_inj, h.active]
  built := h.built

theorem Extractions.insert_built (h : k.Extractions e e') (x : Stretch) (b : Branch) :
    k.Extractions { e with built := e.built.insert x b }
      { e' with built := e'.built.insert (x.relocate k.σ) (b.relocate k.σ) } where
  run := h.run
  frames := h.frames
  active := h.active
  built y := by
    simp only [Std.TreeMap.getElem?_insert, Std.LawfulEqOrd.compare_eq_iff_eq,
      Stretch.relocate_inj]
    split
    · rfl
    · exact h.built y

theorem branchFresh_alike {branch branch' : Session.BranchBuilder}
    (hbranch : k.BranchesAlike branch branch') {r : RuleId} (hr : k.answered s.maxDepth r p)
    (hp : s.source.IsPlace p) (q : Position) (he : k.Extractions e e') :
    Agrees k.extracting (fun b b' => b' = b.map (·.relocate k.σ))
      (s.branchFresh branch ⟨r, p, q⟩)
      (s'.branchFresh branch' ⟨r, k.σ.move p, k.σ.move q⟩) e e' := by
  have hmodify {change change' : Extraction → Extraction} {e e' : Extraction}
      (h : k.Extractions (change e) (change' e')) :
      Agrees k.extracting (fun _ _ => True) (modify change : Extract Unit) (modify change') e e' :=
    ensures_modify.mpr fun _ => ensures_modify.mpr ⟨h, .ok trivial⟩
  unfold Session.branchFresh
  refine (hmodify (he.enter ⟨r, p, q⟩)).bind fun _ _ _ _ he _ => ?_
  refine Agrees.settled (buildBody_alike hbranch hr hp q he)
    (fun result result' _ _ he halike => ?_) fun _ _ hcounts => absurd trivial hcounts
  refine (hmodify (he.leave ⟨r, p, q⟩)).bind fun _ _ _ _ he _ => ?_
  cases halike with
  | error hf => exact .throw he hf
  | @ok ts _ heq =>
      subst heq
      cases ts with
      | none => exact .pure he rfl
      | some children =>
          have hb : (⟨s'.grammar.name r, ⟨k.σ.move p, k.σ.move q⟩,
              children.map (Tree.relocate k.σ)⟩ : Branch) =
                Branch.relocate k.σ ⟨s.grammar.name r, ⟨p, q⟩, children⟩ := by
            rw [k.name_eq]
            rfl
          dsimp only [relocateTrees, Option.map_some]
          rw [hb]
          exact (hmodify (he.insert_built ⟨r, p, q⟩ _)).bind fun _ _ _ _ he _ => .pure he rfl

/-- Branches are built alike at every depth. -/
theorem branchWithin_alike (depth : Nat) :
    k.BranchesAlike (fun r p q => s.branchWithin depth r p q)
      fun r p q => s'.branchWithin depth r p q := by
  induction depth with
  | zero => exact fun r p q e e' _ _ he => reuse_alike he (.throw he rfl)
  | succ depth ih =>
      exact fun r p q e e' hr hp he => reuse_alike he (branchFresh_alike ih hr hp q he)

theorem branch_alike {r : RuleId} (hr : k.answered s.maxDepth r p) (hp : s.source.IsPlace p)
    (q : Position) (hsize : e'.active.size = e.active.size) (he : k.Extractions e e') :
    Agrees k.extracting (fun b b' => b' = b.map (·.relocate k.σ)) (s.branch r p q)
      (s'.branch r (k.σ.move p) (k.σ.move q)) e e' := by
  refine Agrees.get ?_
  rw [k.maxDepth_eq, hsize]
  exact branchWithin_alike _ r p q e e' hr hp he

end Branches
end Building

section Parsing
variable {run run' : Run} {trailing : Bool}

/-- Narrowing a node to one of its paths. -/
theorem Runs.narrow (h : k.Runs run run') {id : NodeId} {q : Position}
    (hq : q ∈ run.arena.output id) :
    k.Runs (run.setOutput id {q}) (run'.setOutput id {k.σ.move q}) where
  lexer := h.lexer
  lexer' := h.lexer'
  memo := h.memo
  failed := h.failed
  arena := by
    rw [Run.setOutput, Run.setOutput, h.arena, ← PathSet.relocate_singleton]
    exact Arena.setOutput_relocate id {q}
  frames := h.frames
  settled p r other hm := by
    obtain ⟨hother, hends⟩ := h.settled p r other hm
    refine ⟨?_, fun m hm => hends m (Run.mem_output_of_narrow hq hm)⟩
    rwa [Run.setOutput, Arena.size_setOutput]
  exact := h.exact

theorem report_alike (h : k.Runs run run') (hexact : k.Exact) (rule : RuleId) (f : Failure) :
    s'.report run' rule (f.relocate k.σ) = (s.report run rule f).relocate k.σ := by
  cases f with
  | depthLimit r p =>
      simp only [Failure.relocate, Session.report, ParseError.relocate, k.name_eq, k.maxDepth_eq]
  | noPath r p =>
      simp only [Failure.relocate, Session.report, ParseError.relocate, k.name_eq,
        (h.exact hexact).2]
      cases run.furthest with
      | none => rfl
      | some q =>
          simp only [Option.map_some, Option.getD_some, Relocation.move_max]

theorem usesUp_alike (hp : s.source.IsPlace p) :
    s'.usesUp trailing (k.σ.move p) = s.usesUp trailing p := by
  have hindex (q : Position) : (k.σ.move q).index = q.index + k.σ.offset := k.σ.index_move q
  unfold Session.usesUp Source.atEnd
  rw [k.skip hp, hindex, hindex, k.length_eq]
  split
  · exact decide_eq_decide.mpr (by omega)
  · rw [Bool.eq_iff_iff, beq_iff_eq, beq_iff_eq]
    omega

theorem winner?_alike {paths : PathSet} (hpaths : ∀ p ∈ paths, s.source.IsPlace p) :
    s'.winner? trailing (paths.relocate k.σ) = (s.winner? trailing paths).map k.σ.move := by
  rw [Session.winner?, Session.winner?, ← PathSet.max?_relocate,
    PathSet.relocate_filter fun p hp => usesUp_alike (hpaths p hp)]

/-- A text that is left over is reported from the last path on. -/
theorem skip_max?_alike {paths : PathSet} {start : Position}
    (hpaths : ∀ p ∈ paths, s.source.IsPlace p) (hstart : s.source.IsPlace start) :
    s'.source.skipIgnored ((paths.relocate k.σ).max?.getD (k.σ.move start)) =
      k.σ.move (s.source.skipIgnored (paths.max?.getD start)) := by
  rw [PathSet.max?_relocate]
  cases hlast : paths.max? with
  | none => exact k.skip hstart
  | some p => exact k.skip (hpaths p (Std.ExtTreeSet.max?_eq_some_iff_mem_and_forall.mp hlast).1)

/-- Behind a derivation, with its root narrowed to one path, trees are extracted alike. -/
theorem Runs.extractions (h : k.Runs run run') {rule : RuleId} {start stop : Position}
    {root : NodeId} (hrun : (s.derive rule start).run.run {} = (.ok root, run))
    (hstop : stop ∈ run.arena.output root) :
    k.Extractions { run := run.setOutput root {stop} }
      { run := run'.setOutput root {k.σ.move stop} } := by
  have hframes : run.frames.length = 0 := ((Session.ensures_derive.mpr
    (Session.deriveWithin_keeps Run.returns_enclosing (s := s) _ rule start {})).of_run hrun).height
  exact ⟨h.narrow hstop, List.length_eq_zero_iff.mp hframes, by simp, by simp⟩

variable (k) in
/-- Both parses succeed with the same tree, or both fail; if nothing is hidden they are the same in
all. -/
inductive Parses : Except ParseError Parse → Except ParseError Parse → Prop
  | ok {r r'} : r'.tree = r.tree.relocate k.σ → (k.Exact → r' = r.relocate k.σ) →
      Parses (.ok r) (.ok r')
  | error {failure failure'} : (k.Exact → failure' = failure.relocate k.σ) →
      Parses (.error failure) (.error failure')

theorem Parses.eq {outcome outcome' : Except ParseError Parse} (h : k.Parses outcome outcome')
    (hexact : k.Exact) : outcome' = relocateOutcome k.σ outcome := by
  cases h with
  | ok _ heq => exact congrArg Except.ok (heq hexact)
  | error heq => exact congrArg Except.error (heq hexact)

theorem Parses.tree_eq {outcome' : Except ParseError Parse} {r : Parse}
    (h : k.Parses (.ok r) outcome') : ∃ r', outcome' = .ok r' ∧ r'.tree = r.tree.relocate k.σ := by
  cases h with
  | ok htree _ => exact ⟨_, rfl, htree⟩

variable (k trailing) in
/-- Sessions that go along with each other parse alike. -/
theorem parse_alike {start : Position} (hstart : s.source.IsPlace start)
    (hselect : s'.grammar.selectStart s'.source.conditions =
      s.grammar.selectStart s.source.conditions)
    (hanswered : ∀ rule, s.grammar.selectStart s.source.conditions = .ok rule →
      k.answered s.maxDepth rule start) :
    k.Parses (s.parse trailing start) (s'.parse trailing (k.σ.move start)) := by
  unfold Session.parse
  rw [hselect]
  cases hrule : s.grammar.selectStart s.source.conditions with
  | error e => exact .error fun _ => (Grammar.relocate_of_selectStart k.σ hrule).symm
  | ok rule =>
      simp only [bind, Except.bind]
      have hanswered := hanswered rule hrule
      rcases hrun : (s.derive rule start).run.run {} with ⟨result, run⟩
      rcases hrun' : (s'.derive rule (k.σ.move start)).run.run {} with ⟨result', run'⟩
      have hfresh : k.Runs {} {} := .fresh
      have hderive := derive_alike hanswered hstart hfresh
      obtain ⟨hruns, halike⟩ := (hderive.of_run hrun' fun _ _ => trivial).of_run hrun
      cases halike with
      | @error f _ hf =>
          obtain rfl : _ = f.relocate k.σ := hf
          exact .error fun hexact => report_alike hruns hexact rule f
      | @ok _ root heq =>
          subst heq
          have hm := (Session.ensures_derive.mpr (deriveWithin_settles s _ rule start {})).of_run
            hrun root rfl
          have hplaces (p : Position) (hp : p ∈ run.arena.output root) : s.source.IsPlace p :=
            ((hruns.settled _ _ _ hm).2 p hp).1
          dsimp only
          rw [hruns.arena, Arena.output_relocate, winner?_alike hplaces]
          cases hwinner : s.winner? trailing (run.arena.output root) with
          | none =>
              refine .error fun _ => ?_
              rw [skip_max?_alike hplaces hstart, k.name_eq]
              rfl
          | some stop =>
              obtain ⟨⟨hstop, -⟩, -⟩ := Session.winner?_eq_some.mp hwinner
              have hbranch := branch_alike hanswered hstart stop (by rfl)
                (hruns.extractions hrun hstop)
              dsimp only [Option.map_some]
              rcases hrun : (s.branch rule start stop).run.run
                { run := run.setOutput root {stop} } with ⟨result, e⟩
              rcases hrun' : (s'.branch rule (k.σ.move start) (k.σ.move stop)).run.run
                { run := run'.setOutput root {k.σ.move stop} } with ⟨result', e'⟩
              obtain ⟨he, halike⟩ := (hbranch.of_run hrun' fun _ _ => trivial).of_run hrun
              cases halike with
              | @error f _ hf =>
                  obtain rfl : _ = f.relocate k.σ := hf
                  exact .error fun hexact => report_alike he.run hexact rule f
              | @ok tree _ heq =>
                  subst heq
                  cases tree with
                  | none => exact .error fun hexact =>
                      report_alike he.run hexact rule (.noPath (some rule) start)
                  | some tree =>
                      refine .ok rfl fun hexact => ?_
                      simp only [Parse.relocate, he.run.arena, (he.run.exact hexact).1]

end Parsing
end Counterpart
end Multipath
