import Multipath.Proofs.Foundations
import Multipath.Proofs.Ideals

/-!
Branches as the derivation relation prefers them. An extraction stands on a `Footing`: runs that
find the ends of what is asked of them, all of them unless some rule meets itself. Then every branch
is the preferred derivation of its rule (`Footing.branchWithin_yields`). It is never refused for a
stretch under way, since rules that were derived without meeting themselves are grounded.
-/

namespace Multipath

open Relation (TransGen)
open Search (attempt outputOf readToken)
open Extract (ofSearch)

/-- Runs that an extraction keeps to, and what may be asked of them. -/
structure Footing (s : Session) where
  kept : Run → Prop
  asked : Question → Prop
  /-- The rules whose bodies may be gone through. -/
  entered : Reference → Prop
  /-- Whether searches may be cut off. -/
  cut : Prop
  valid : ∀ {run}, kept run → run.Valid s (.places s.source)
  asks : ∀ {x definition q}, entered x → s.grammar.rule? x.rule = some definition →
    s.Asks definition.body x.position q → asked q
  read : ∀ {p run}, kept run → s.source.IsPlace p → asked (.token p) →
    Ensures (readToken s.source p) run fun result run' => kept run' ∧ run.Grows run' ∧
      result = .ok (s.source.token p)
  follow : ∀ {rule input run}, kept run → (∀ p ∈ input, s.AsksOnly asked rule p) →
    Ensures (s.follow rule input) run fun result run' => kept run' ∧ run.Grows run' ∧
      (Uncut result ∨ cut) ∧
      (∀ out, result = .ok out → ∀ q ∈ out, ∃ p ∈ input, s.Ends rule p q) ∧
      (run'.stats.leftRecursionHits = 0 → Answers result fun q => ∃ p ∈ input, s.Ends rule p q)
  derive : ∀ {rule p run}, kept run → s.source.IsPlace p → asked (.reference rule p) →
    Ensures (s.derive rule p) run fun result run' => kept run' ∧ run.Grows run' ∧
      (Uncut result ∨ cut) ∧
      (∀ id, result = .ok id → entered ⟨p, rule⟩ ∧
        ∀ q ∈ run'.arena.output id, s.Ends (.nonterminal rule) p q) ∧
      (run'.stats.leftRecursionHits = 0 →
        Answers (result.map run'.arena.output) (s.Ends (.nonterminal rule) p) ∧
        ∀ id, result = .ok id → s.Grounded ⟨p, rule⟩)

namespace Footing

variable {s : Session} {b : Footing s} {under : Std.TreeSet Stretch} {depth : Nat}
  {e : Extraction} {rule : RuleId} {p q : Position} {α : Type}

/-- All stretches under way refer to a rule at a position. -/
def Below (s : Session) (under : Std.TreeSet Stretch) (x : Reference) : Prop :=
  ∀ stretch ∈ under, TransGen s.Refers ⟨stretch.start, stretch.rule⟩ x

/-- The extraction keeps to the footing, with those stretches under way, and the branches that it
has built are preferred. -/
structure Keeps (b : Footing s) (under : Std.TreeSet Stretch) (e : Extraction) : Prop where
  kept : b.kept e.run
  valid : e.Valid s (.places s.source)
  active : ∀ stretch, stretch ∈ e.active ↔ stretch ∈ under
  built : e.run.stats.leftRecursionHits = 0 → ∀ (stretch : Stretch) t,
    e.built[stretch]? = some t →
    s.Prefers (.nonterminal stretch.rule) stretch.start stretch.stop [t.tree]

/-- Extraction should come to what the derivation relation prefers; it need not where that nests
deeper than `depth`. -/
def ideal (b : Footing s) (under : Std.TreeSet Stretch) (depth : Nat) : Ideal s where
  reads p t := s.source.token p = .ok t
  refers rule := s.Ends (.nonterminal rule)
  place := s.source.IsPlace
  asked x := b.asked x ∧ ∀ rule p, x = .reference rule p → Below s under ⟨p, rule⟩
  inv := b.Keeps under
  counts e := e.run.stats.leftRecursionHits = 0
  cut := b.cut
  excuse ts := depth < Tree.nestingAll ts
  reads_lt ht := (Source.token_stop ht).1
  refers_upto := Session.Ends.upto
  place_of_reads ht hp := hp.of_token ht
  place_of_refers hr hp := hr.isPlace hp
  excuse_append h := by
    rw [Tree.nestingAll_append]
    omega

theorem ideal_leads : (b.ideal under depth).Leads = s.Ends := by
  funext rule p q
  exact propext Session.ends_iff_leads.symm

theorem ideal_prefers : (b.ideal under depth).Prefers = s.Prefers := by
  unfold Ideal.Prefers
  rw [ideal_leads]
  rfl

theorem admits_of_ideal {rule : Rule} (h : (b.ideal under depth).Admits rule p) :
    s.AsksOnly b.asked rule p := ⟨h.1, fun x hx => (h.2 x hx).1⟩

theorem Keeps.search (h : b.Keeps under e) {run : Run} (hk : b.kept run) (hg : e.run.Grows run) :
    b.Keeps under { e with run } where
  kept := hk
  valid := ⟨b.valid hk, fun stretch t ht => hg.isInstance h.valid.run (b.valid hk)
    (h.valid.built stretch t ht)⟩
  active := h.active
  built hhits := h.built (Nat.le_zero.mp (hhits ▸ hg.hits))

theorem ideal_reach {item : Rule} {paths : PathSet} (stop : Position) (h : b.Keeps under e)
    (hadmits : ∀ p ∈ paths, (b.ideal under depth).Admits item p) :
    (b.ideal under depth).Yields (s.reach item paths stop) e
      (fun out => ∀ q ∈ out, q ≤ stop ∧ ∃ p ∈ paths, (b.ideal under depth).Leads item p q)
      ((b.ideal under depth).Gathers item paths stop) := by
  have hfollow := b.follow h.kept fun p hp => admits_of_ideal (hadmits p hp)
  refine ensures_bind.mpr (ensures_ofSearch.mpr (Search.ensures_attempt.mpr
    (Ensures.mono hfollow fun result run' hpost => ?_)))
  obtain ⟨hkept, hgrows, hcut, hsound, hall⟩ := hpost
  have h' := h.search hkept hgrows
  have hcounts : run'.stats.leftRecursionHits = 0 → e.run.stats.leftRecursionHits = 0 :=
    fun hhits => Nat.le_zero.mp (hhits ▸ hgrows.hits)
  cases result with
  | ok out =>
      refine ensures_pure.mpr ⟨h', hcounts, fun out' heq q hq => ?_, fun hhits p hp q hl hle => ?_⟩
      · cases heq
        obtain ⟨hq, hle⟩ := SortedSet.mem_filter.mp hq
        rw [ideal_leads]
        exact ⟨by simpa using hle, hsound out rfl q hq⟩
      · rw [ideal_leads] at hl
        exact SortedSet.mem_filter.mpr ⟨hall hhits q ⟨p, hp, hl⟩, by simpa using hle⟩
  | error f =>
      dsimp only
      split
      · next hf =>
          refine ensures_pure.mpr ⟨h', hcounts, fun out' heq q hq => ?_,
            fun hhits p hp q hl _ => ?_⟩
          · cases heq
            exact absurd hq Std.ExtTreeSet.not_mem_empty
          · rw [ideal_leads] at hl
            exact absurd ⟨p, hp, hl⟩ (hall hhits hf q)
      · next hf => exact ⟨h', hcounts, nofun, fun _ => hcut.resolve_left fun hu => hf (hu f rfl)⟩

theorem ideal_terminal {tag : TagId} (q : Position) (h : b.Keeps under e)
    (hadmits : (b.ideal under depth).Admits (.terminal tag) p) :
    (b.ideal under depth).Makes (s.buildTerminal tag p q) e (.terminal tag) p q := by
  have hread := b.read h.kept hadmits.1 (hadmits.2 _ .terminal).1
  refine ensures_bind.mpr (ensures_ofSearch.mpr (Ensures.mono hread fun result run' hpost => ?_))
  obtain ⟨hkept, hgrows, rfl⟩ := hpost
  have h' := h.search hkept hgrows
  have hcounts : run'.stats.leftRecursionHits = 0 → e.run.stats.leftRecursionHits = 0 :=
    fun hhits => Nat.le_zero.mp (hhits ▸ hgrows.hits)
  unfold Ideal.Outcome
  rw [ideal_leads, ideal_prefers]
  cases htoken : s.source.token p with
  | error f =>
      refine ensures_pure.mpr ⟨h', hcounts, fun _ _ => trivial, fun _ hl => ?_⟩
      cases hl with
      | terminal ht _ => cases htoken.symm.trans ht
  | ok token =>
      dsimp only
      split
      · next hif =>
          simp only [Bool.and_eq_true, decide_eq_true_eq] at hif
          refine ensures_pure.mpr ⟨h', hcounts, fun _ _ => trivial, fun _ => ?_⟩
          rw [← hif.2]
          exact ⟨.terminal htoken hif.1, .terminal htoken hif.1⟩
      · next hif =>
          refine ensures_pure.mpr ⟨h', hcounts, fun _ _ => trivial, fun _ hl => hif ?_⟩
          cases hl with
          | terminal ht htag =>
              obtain rfl := Except.ok.inj (htoken.symm.trans ht)
              simp [htag]

/-- What a branch should come to; it is not refused where its rule is grounded, or not under way. -/
def Delivers (b : Footing s) (under : Std.TreeSet Stretch) (depth : Nat) (rule : RuleId)
    (p q : Position) (result : Except Failure (Option Branch)) : Prop :=
  s.Grounded ⟨p, rule⟩ ∨ (⟨rule, p, q⟩ : Stretch) ∉ under →
    match result with
    | .ok (some t) => s.Prefers (.nonterminal rule) p q [t.tree]
    | .ok none => ¬s.Ends (.nonterminal rule) p q
    | .error _ => b.cut ∨
        ∀ ts, s.Prefers (.nonterminal rule) p q ts → depth < Tree.nestingAll ts

/-- Branches come to what they should, for rules that may be entered. -/
def Branches (b : Footing s) (under : Std.TreeSet Stretch) (depth : Nat)
    (branch : Session.BranchBuilder) : Prop :=
  ∀ rule p q e, b.Keeps under e → s.source.IsPlace p → b.entered ⟨p, rule⟩ →
    Below s under ⟨p, rule⟩ →
    (b.ideal under depth).Yields (branch rule p q) e (fun _ => True)
      (b.Delivers under depth rule p q)

theorem ideal_nonterminal {branch : Session.BranchBuilder} (hbranch : b.Branches under depth branch)
    (q : Position) (h : b.Keeps under e)
    (hadmits : (b.ideal under depth).Admits (.nonterminal rule) p) :
    (b.ideal under depth).Makes (s.buildNonterminal branch rule p q) e (.nonterminal rule) p q := by
  obtain ⟨hasked, hbelow⟩ := hadmits.2 _ .nonterminal
  refine ensures_bind.mpr (ensures_ofSearch.mpr (Search.ensures_attempt.mpr
    (Ensures.mono (b.derive h.kept hadmits.1 hasked) fun result run' hpost => ?_)))
  obtain ⟨hkept, hgrows, hcut, hfound, hall⟩ := hpost
  have h' := h.search hkept hgrows
  have hcounts : run'.stats.leftRecursionHits = 0 → e.run.stats.leftRecursionHits = 0 :=
    fun hhits => Nat.le_zero.mp (hhits ▸ hgrows.hits)
  unfold Ideal.Outcome
  rw [ideal_leads, ideal_prefers]
  cases result with
  | error f =>
      dsimp only
      split
      · next hf =>
          exact ensures_pure.mpr ⟨h', hcounts, fun _ _ => trivial,
            fun hhits => (hall hhits).1 hf q⟩
      · next hf =>
          exact ⟨h', hcounts, nofun, fun _ => .inl (hcut.resolve_left fun hu => hf (hu f rfl))⟩
  | ok id =>
      obtain ⟨hentered, hsound⟩ := hfound id rfl
      refine ensures_bind.mpr (ensures_ofSearch.mpr (Search.ensures_outputOf.mpr ?_))
      dsimp only
      split
      · next hmem =>
          have hends := hsound q hmem
          refine ensures_bind.mpr (Ensures.mono (hbranch rule p q _ h' hadmits.1 hentered
            (hbelow rule p rfl)) fun result e₂ hpost => ?_)
          obtain ⟨h₂, hcounts₂, -, hdelivers⟩ := hpost
          have hdelivered (hhits : e₂.run.stats.leftRecursionHits = 0) :=
            hdelivers hhits (.inl ((hall (hcounts₂ hhits)).2 id rfl))
          cases result with
          | error f =>
              exact ⟨h₂, fun hhits => hcounts (hcounts₂ hhits), nofun,
                fun hhits => (hdelivered hhits).imp_right fun hdeep => ⟨hends, hdeep⟩⟩
          | ok found =>
              refine ensures_pure.mpr ⟨h₂, fun hhits => hcounts (hcounts₂ hhits),
                fun _ _ => trivial, fun hhits => ?_⟩
              cases found with
              | none => exact hdelivered hhits
              | some t => exact ⟨hends, hdelivered hhits⟩
      · next hmem =>
          exact ensures_pure.mpr ⟨h', hcounts, fun _ _ => trivial,
            fun hhits hl => hmem ((hall hhits).1 q hl)⟩

theorem ideal_served {branch : Session.BranchBuilder} (hbranch : b.Branches under depth branch)
    (hfaithful : s.FaithfulBranches (.places s.source) branch) :
    (b.ideal under depth).Served branch where
  reach stop h hadmits := ideal_reach stop h hadmits
  terminal q h hadmits := ideal_terminal q h hadmits
  nonterminal q h hadmits := ideal_nonterminal hbranch q h hadmits
  explores {body e start} stop h hstart := by
    refine Ensures.mono ((fragment_faithful hfaithful body).explore_closes start stop e h.valid
      (.inl hstart)) fun result e' hpost _ steps hsteps => ?_
    obtain ⟨-, -, hpost⟩ := hpost
    rw [hsteps] at hpost
    exact hpost.2

section Branches
variable {stretch : Stretch}

theorem Keeps.enter (h : b.Keeps under e) (stretch : Stretch) :
    b.Keeps (under.insert stretch) (e.enter stretch) where
  kept := h.kept
  valid := ⟨h.valid.run, h.valid.built⟩
  active other := by simp only [Extraction.enter, Std.TreeSet.mem_insert, h.active]
  built := h.built

theorem Keeps.leave (h : b.Keeps (under.insert stretch) e) (hnew : stretch ∉ under) :
    b.Keeps under (e.leave stretch) where
  kept := h.kept
  valid := ⟨h.valid.run, h.valid.built⟩
  active := Stretch.mem_erase_iff h.active hnew
  built := h.built

/-- A branch is put away that is preferred. -/
theorem Keeps.insert_built (h : b.Keeps under e) {t : Branch}
    (hvalid : Extraction.Valid s (.places s.source) { e with built := e.built.insert stretch t })
    (ht : e.run.stats.leftRecursionHits = 0 →
      s.Prefers (.nonterminal stretch.rule) stretch.start stretch.stop [t.tree]) :
    b.Keeps under { e with built := e.built.insert stretch t } where
  kept := h.kept
  valid := hvalid
  active := h.active
  built hhits other t' ht' := by
    simp only [Std.TreeMap.getElem?_insert, Std.LawfulEqOrd.compare_eq_iff_eq] at ht'
    split at ht'
    · next heq =>
        cases ht'
        rw [← heq]
        exact ht hhits
    · exact h.built hhits other t' ht'

theorem Below.body (h : Below s under ⟨p, rule⟩) {definition : Grammar.Definition}
    (hdef : s.grammar.rule? rule = some definition) {r : RuleId} {m : Position}
    (hasks : s.Asks definition.body p (.reference r m)) (q : Position) :
    Below s (under.insert ⟨rule, p, q⟩) ⟨m, r⟩ := by
  intro stretch hmem
  have hrefers : s.Refers ⟨p, rule⟩ ⟨m, r⟩ := ⟨definition, hdef, hasks⟩
  rw [Std.TreeSet.mem_insert, Std.LawfulEqOrd.compare_eq_iff_eq] at hmem
  obtain rfl | hmem := hmem
  · exact .single hrefers
  · exact .tail (h stretch hmem) hrefers

/-- The body of a rule that is entered may be gone through. -/
theorem ideal_admits (hp : s.source.IsPlace p) (hentered : b.entered ⟨p, rule⟩)
    (hbelow : Below s under ⟨p, rule⟩) {definition : Grammar.Definition}
    (hdef : s.grammar.rule? rule = some definition) (q : Position) :
    (b.ideal (under.insert ⟨rule, p, q⟩) depth).Admits definition.body p := by
  refine ⟨hp, fun x hx => ⟨b.asks hentered hdef hx, ?_⟩⟩
  rintro r m rfl
  exact hbelow.body hdef hx q

/-- A branch that was put away is preferred, and a stretch under way is not met again where its
rule is grounded. -/
theorem reuse_yields {fresh : Extract (Option Branch)} (h : b.Keeps under e)
    (hbelow : Below s under ⟨p, rule⟩)
    (hfresh : (⟨rule, p, q⟩ : Stretch) ∉ under → (b.ideal under depth).Yields fresh e
      (fun _ => True) (b.Delivers under depth rule p q)) :
    (b.ideal under depth).Yields (Session.reuse ⟨rule, p, q⟩ fresh) e (fun _ => True)
      (b.Delivers under depth rule p q) := by
  refine ensures_reuse
    (fun t ht => ⟨h, id, fun _ _ => trivial, fun hhits _ => h.built hhits _ t ht⟩)
    (fun hactive => ⟨h, id, fun _ _ => trivial, fun _ hgrounded => ?_⟩)
    fun _ hactive => hfresh (mt (h.active _).mpr hactive)
  have hmem := (h.active _).mp hactive
  have hcircle : TransGen s.Refers ⟨p, rule⟩ ⟨p, rule⟩ := hbelow _ hmem
  exact (hgrounded.elim (fun hx => hx.not_circular hcircle) fun hnot => hnot hmem).elim

/-- What the body of a rule comes to, if the grammar has the rule. -/
theorem body_yields {branch : Session.BranchBuilder}
    (hs : (b.ideal (under.insert ⟨rule, p, q⟩) depth).Served branch)
    (h : b.Keeps (under.insert ⟨rule, p, q⟩) e) (hp : s.source.IsPlace p)
    (hentered : b.entered ⟨p, rule⟩) (hbelow : Below s under ⟨p, rule⟩) :
    (b.ideal (under.insert ⟨rule, p, q⟩) depth).Yields
      (match s.grammar.rule? rule with
        | some definition => s.build branch definition.body p q
        | none => pure none) e (fun _ => True) fun
      | .ok (some ts) => s.Prefers (.nonterminal rule) p q [.branch (s.grammar.name rule) ⟨p, q⟩ ts]
      | .ok none => ¬s.Ends (.nonterminal rule) p q
      | .error _ => b.cut ∨
          ∀ ts, s.Prefers (.nonterminal rule) p q ts → depth + 1 < Tree.nestingAll ts := by
  split
  · next definition hdef =>
      refine (Ideal.build_makes hs definition.body p q e h
        (ideal_admits hp hentered hbelow hdef q)).mono (fun _ => id) fun result hmade => ?_
      unfold Ideal.Outcome at hmade
      rw [ideal_leads, ideal_prefers] at hmade
      match result, hmade with
      | .ok (some ts), hmade => exact .nonterminal hdef hmade.2
      | .ok none, hnot =>
          intro hends
          cases hends with
          | nonterminal hdef' hbody =>
              obtain rfl := Option.some.inj (hdef.symm.trans hdef')
              exact hnot hbody
      | .error f, hfails =>
          refine hfails.imp_right fun hdeep ts hts => ?_
          cases hts with
          | nonterminal hdef' hbody =>
              obtain rfl := Option.some.inj (hdef.symm.trans hdef')
              simpa [Tree.nestingAll, Tree.nesting, Ideal.excuse, ideal] using hdeep.2 _ hbody
  · next hdef =>
      refine .pure h trivial fun hends => ?_
      cases hends with
      | nonterminal hdef' _ => cases hdef.symm.trans hdef'

theorem branchFresh_yields {branch : Session.BranchBuilder}
    (hbranch : b.Branches (under.insert ⟨rule, p, q⟩) depth branch)
    (hfaithful : s.FaithfulBranches (.places s.source) branch) (h : b.Keeps under e)
    (hp : s.source.IsPlace p) (hentered : b.entered ⟨p, rule⟩) (hbelow : Below s under ⟨p, rule⟩)
    (hnew : (⟨rule, p, q⟩ : Stretch) ∉ under) :
    (b.ideal under (depth + 1)).Yields (s.branchFresh branch ⟨rule, p, q⟩) e (fun _ => True)
      (b.Delivers under (depth + 1) rule p q) := by
  -- that the branch put away is an instance of its rule is known
  have hvalid := branchFresh_gives hfaithful rule p q h.valid (.inl hp)
    fun hmem => hnew ((h.active _).mp hmem)
  suffices hmore : Ensures (s.branchFresh branch ⟨rule, p, q⟩) e fun result e' =>
      e'.Valid s (.places s.source) → b.Keeps under e' ∧
        (e'.run.stats.leftRecursionHits = 0 → e.run.stats.leftRecursionHits = 0) ∧
        (e'.run.stats.leftRecursionHits = 0 → b.Delivers under (depth + 1) rule p q result) by
    refine Ensures.mono (Ensures.and hvalid hmore) fun result e' hpost => ?_
    obtain ⟨hkeeps, hcounts, hdelivers⟩ := hpost.2 hpost.1.1
    exact ⟨hkeeps, hcounts, fun _ _ => trivial, hdelivers⟩
  have hbody := body_yields (ideal_served hbranch hfaithful) (h.enter ⟨rule, p, q⟩) hp hentered
    hbelow
  refine ensures_branchFresh hbody (fun f e₂ hpost => ?_) (fun e₂ hpost => ?_)
    fun children e₂ hpost hvalid => ?_ <;> obtain ⟨h₂, hcounts, -, hsettled⟩ := hpost
  · exact fun _ => ⟨h₂.leave hnew, hcounts, fun hhits _ => hsettled hhits⟩
  · exact fun _ => ⟨h₂.leave hnew, hcounts, fun hhits _ => hsettled hhits⟩
  · exact ⟨(h₂.leave hnew).insert_built hvalid hsettled, hcounts, fun hhits _ => hsettled hhits⟩

/-- Branches are what the derivation relation prefers, at every depth. -/
theorem branchWithin_yields (b : Footing s) (under : Std.TreeSet Stretch) (depth : Nat) :
    b.Branches under depth fun rule p q => s.branchWithin depth rule p q := by
  induction depth generalizing under with
  | zero =>
      intro rule p q e h hp hentered hbelow
      refine reuse_yields h hbelow fun _ => ensures_throw.mpr ⟨h, id, nofun, fun _ _ => .inr ?_⟩
      intro ts hts
      cases hts with
      | nonterminal _ _ => simp [Tree.nestingAll, Tree.nesting]
  | succ depth ih =>
      intro rule p q e h hp hentered hbelow
      exact reuse_yields h hbelow fun hnew => branchFresh_yields (ih _)
        (branchWithin_faithful depth) h hp hentered hbelow hnew

/-- The branch that is extracted is the preferred one, where no stretch is under way. -/
theorem branch_yields (b : Footing s) (h : b.Keeps ∅ e) (hp : s.source.IsPlace p)
    (hentered : b.entered ⟨p, rule⟩) (q : Position) :
    Ensures (s.branch rule p q) e fun result e' => b.Keeps ∅ e' ∧
      (e'.run.stats.leftRecursionHits = 0 → match result with
        | .ok (some t) => s.Prefers (.nonterminal rule) p q [t.tree]
        | .ok none => ¬s.Ends (.nonterminal rule) p q
        | .error _ => b.cut ∨
            ∀ ts, s.Prefers (.nonterminal rule) p q ts → s.maxDepth < Tree.nestingAll ts) := by
  refine ensures_bind.mpr (ensures_get.mpr ?_)
  have hsize : e.active.size = 0 :=
    (Std.TreeSet.Equiv.of_forall_mem_iff h.active).size_eq.trans Std.TreeSet.size_emptyc
  have hnone (stretch : Stretch) : stretch ∉ (∅ : Std.TreeSet Stretch) := by simp
  dsimp only
  rw [hsize, Nat.sub_zero]
  refine Ensures.mono (b.branchWithin_yields ∅ s.maxDepth rule p q e h hp hentered
    fun stretch hmem => absurd hmem (hnone stretch)) fun result e' hpost => ?_
  obtain ⟨h', -, -, hdelivers⟩ := hpost
  exact ⟨h', fun hhits => hdelivers hhits (.inr (hnone _))⟩

end Branches
end Footing
end Multipath
