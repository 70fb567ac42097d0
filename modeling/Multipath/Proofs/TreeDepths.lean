import Multipath.Proofs.Advances
import Multipath.Proofs.Contexts
import Multipath.Proofs.Recognition

/-!
How deep a tree nests. The bound on nesting is looked at where a branch is begun, and a branch that
was put away may be used further down, so a tree can nest deeper than the bound
(`Session.parse_nests_deeper`). What is used again spans no text, though, as an extraction only
advances, and nests no deeper than there are rules: the branches that span text keep to the bound,
and all together nest at most as many levels deeper as the grammar has rules.
-/

namespace Multipath

open Search (attempt outputOf readToken)
open Extract (ofSearch)
open Extraction (Searches searches_steady)

namespace Extraction

variable {s : Session} {c : Scope s.source} {e : Extraction} {p q : Position} {d : Nat}
  {stretch : Stretch} {b : Branch}

theorem Shallow.leaf (s : Session) (e : Extraction) (d : Nat) (p q : Position) (token : Leaf) :
    e.Shallow s d p q [.leaf token] := by
  by_cases heq : p = q
  · exact .inl ⟨heq, rfl, [], .nil, nofun, Nat.le_refl 0⟩
  · exact .inr ⟨heq, Nat.zero_le _, Nat.zero_le _⟩

theorem Inside.enter (h : e.Inside p q) (rule : RuleId) :
    (e.enter ⟨rule, p, q⟩).Inside p q := by
  intro stretch hmem
  simp only [Extraction.enter, Std.TreeSet.mem_insert, Std.LawfulEqOrd.compare_eq_iff_eq] at hmem
  obtain rfl | hmem := hmem
  · exact ⟨Nat.le_refl _, Nat.le_refl _⟩
  · exact h stretch hmem

theorem Advanced.enter (h : e.Advanced p) (hbuilt : stretch ∉ e.built) :
    (e.enter stretch).Advanced p := by
  refine ⟨h.behind, h.hollow, fun other hmem => ?_⟩
  simp only [Extraction.enter, Std.TreeSet.mem_insert, Std.LawfulEqOrd.compare_eq_iff_eq] at hmem
  obtain rfl | hmem := hmem
  · exact hbuilt
  · exact h.apart other hmem

theorem Advanced.leave (h : e.Advanced p) : (e.leave stretch).Advanced p :=
  ⟨h.behind, h.hollow, fun other hmem => h.apart other (Std.TreeSet.mem_of_mem_erase hmem)⟩

/-- A branch is put away. -/
def put (e : Extraction) (stretch : Stretch) (b : Branch) : Extraction :=
  { e with built := e.built.insert stretch b }

theorem mem_put {other : Stretch} :
    other ∈ (e.put stretch b).built ↔ stretch = other ∨ other ∈ e.built := by
  simp [put, Std.TreeMap.mem_insert]

theorem stores_put : e.Stores (e.put stretch b) := fun _ hmem => mem_put.mpr (.inr hmem)

theorem Advanced.put (h : e.Advanced q) (hactive : stretch ∉ e.active)
    (hbehind : stretch.start ≠ stretch.stop → stretch.stop.index ≤ q.index)
    (hhollow : stretch.start = stretch.stop → (e.put stretch b).Hollow stretch.start [b.tree]) :
    (e.put stretch b).Advanced q := by
  have hput {other : Stretch} {t : Branch} (ht : (e.put stretch b).built[other]? = some t) :
      stretch = other ∧ b = t ∨ e.built[other]? = some t := by
    simp only [Extraction.put, Std.TreeMap.getElem?_insert,
      Std.LawfulEqOrd.compare_eq_iff_eq] at ht
    split at ht
    · next heq => exact .inl ⟨heq, Option.some.inj ht⟩
    · exact .inr ht
  refine ⟨fun other t ht => ?_, fun other t ht => ?_, fun other hmem hbuilt => ?_⟩
  · obtain ⟨rfl, rfl⟩ | ht := hput ht
    · exact hbehind
    · exact h.behind other t ht
  · obtain ⟨rfl, rfl⟩ | ht := hput ht
    · exact hhollow
    · exact fun hsame => (h.hollow other t ht hsame).mono stores_put
  · obtain rfl | hbuilt := mem_put.mp hbuilt
    · exact hactive hmem
    · exact h.apart other hmem hbuilt

/-- A branch over no text is one level deeper than what is in it, by a rule that has none put away
there before. -/
theorem Hollow.put {rule : RuleId} (h : e.Hollow p b.children) (hspan : b.span = ⟨p, p⟩)
    (hnew : (⟨rule, p, p⟩ : Stretch) ∉ e.built) :
    (e.put ⟨rule, p, p⟩ b).Hollow p [b.tree] := by
  obtain ⟨hspanning, rules, hnodup, hbuilt, hnesting⟩ := h
  refine ⟨?_, rule :: rules, List.nodup_cons.mpr ⟨fun hmem => hnew (hbuilt rule hmem), hnodup⟩,
    fun r hr => ?_, ?_⟩
  · simpa [Tree.spanningAll, Branch.tree, Tree.spanning, hspan] using hspanning
  · obtain rfl | hr := List.mem_cons.mp hr
    · exact mem_put.mpr (.inl rfl)
    · exact stores_put _ (hbuilt r hr)
  · simpa [Tree.nestingAll, Branch.tree, Tree.nesting] using hnesting

/-- The branch of a stretch is put away once it was left, one level deeper than its body. -/
theorem Advanced.leave_put {rule : RuleId} (h : e.Advanced q)
    (hshallow : e.Shallow s d p q b.children) (hspan : b.span = ⟨p, q⟩)
    (hactive : (⟨rule, p, q⟩ : Stretch) ∈ e.active) :
    ((e.leave ⟨rule, p, q⟩).put ⟨rule, p, q⟩ b).Advanced q ∧
      ((e.leave ⟨rule, p, q⟩).put ⟨rule, p, q⟩ b).Shallow s (d + 1) p q [b.tree] := by
  have hleft : (⟨rule, p, q⟩ : Stretch) ∉ (e.leave ⟨rule, p, q⟩).active := by
    simp [Extraction.leave, Std.TreeSet.mem_erase]
  have hnew : (⟨rule, p, q⟩ : Stretch) ∉ (e.leave ⟨rule, p, q⟩).built := h.apart _ hactive
  obtain ⟨rfl, hhollow⟩ | ⟨hne, hspanning, hnesting⟩ := hshallow
  · have hput : ((e.leave ⟨rule, p, p⟩).put ⟨rule, p, p⟩ b).Hollow p [b.tree] :=
      Hollow.put (e := e.leave ⟨rule, p, p⟩) hhollow hspan hnew
    exact ⟨h.leave.put hleft (fun _ => Nat.le_refl _) fun _ => hput, .inl ⟨rfl, hput⟩⟩
  · refine ⟨h.leave.put hleft (fun _ => Nat.le_refl _) fun heq => absurd heq hne,
      .inr ⟨hne, ?_, ?_⟩⟩
    · simpa [Tree.spanningAll, Branch.tree, Tree.spanning, hspan, hne] using hspanning
    · simp only [Tree.nestingAll, Branch.tree, Tree.nesting, Nat.max_zero]
      omega

end Extraction

namespace Session

variable {s : Session} {c : Scope s.source} {e : Extraction} {d : Nat} {rule : RuleId}
  {p q : Position}

/-- Branches, of which at most `d` nest that span text, advance an extraction. -/
def PacedBranches (s : Session) (c : Scope s.source) (d : Nat) (branch : BranchBuilder) : Prop :=
  ∀ rule p q e, Extraction.Valid s c e → e.run.Within c p → e.Advanced p → e.Inside p q →
    p.Upto q → Extract.Gives s c (branch rule p q) e fun found e' =>
      e.Advances s d p q (found.map fun b => [b.tree]) e'

theorem forward_advances {x : Extract (Option (List Tree))} (he : e.Valid s c)
    (hadv : e.Advanced p) (hx : Extract.Gives s c x e (e.Advances s d p q)) :
    Extract.Gives s c (forward p q x) e (e.Advances s d p q) := by
  unfold forward
  split
  · exact .pure he ⟨.refl _, hadv⟩
  · exact hx

theorem nothing_advances {e₁ : Extraction} (he : e₁.Valid s c) (hstores : e.Stores e₁)
    (hadv : e₁.Advanced p) :
    Extract.Gives s c (pure (nothing p q)) e₁ (e.Advances s d p q) := by
  refine .pure he ⟨hstores, ?_⟩
  by_cases heq : p = q
  · subst heq
    rw [nothing, if_pos rfl]
    exact ⟨hadv, .nil s e₁ d p⟩
  · rw [nothing, if_neg heq]
    exact hadv

theorem buildTerminal_advances (tag : TagId) (he : e.Valid s c) (hp : e.run.Within c p)
    (hadv : e.Advanced p) (hpq : p.Upto q) :
    Extract.Gives s c (s.buildTerminal tag p q) e (e.Advances s d p q) := by
  have hread : Extract.Gives s c (ofSearch (readToken s.source p)) e fun _ _ => True :=
    gives_ofSearch he ((readToken_spec he.run hp).mono fun result run' hpost => by
      obtain ⟨hv', honly, r, rfl, -⟩ := hpost
      exact ⟨hv', honly.grows, trivial⟩)
  refine (hread.keeping (Extract.keeps_searches _)).bind fun r e₁ he₁ hg₁ hpost => ?_
  obtain ⟨-, hsearches⟩ := hpost
  have hadv₁ := hsearches.advanced hg₁ hadv
  cases r with
  | error f => exact .pure he₁ ⟨hsearches.stores, hadv₁⟩
  | ok token =>
      dsimp only
      split
      · exact .pure he₁ ⟨hsearches.stores, hadv₁.upto hpq, .leaf s e₁ d p q _⟩
      · exact .pure he₁ ⟨hsearches.stores, hadv₁⟩

variable {branch : BranchBuilder}

theorem buildNonterminal_advances (hpaced : s.PacedBranches c d branch) (rule : RuleId)
    (he : e.Valid s c) (hp : e.run.Within c p) (hadv : e.Advanced p) (hinside : e.Inside p q)
    (hpq : p.Upto q) :
    Extract.Gives s c (s.buildNonterminal branch rule p q) e (e.Advances s d p q) := by
  refine ((derive_gives rule p he hp).keeping (Extract.keeps_searches _)).bind
    fun result e₁ he₁ hg₁ hpost => ?_
  obtain ⟨-, hsearches⟩ := hpost
  have hadv₁ := hsearches.advanced hg₁ hadv
  cases result with
  | error f => exact .pure he₁ ⟨hsearches.stores, hadv₁⟩
  | ok id =>
      have houtput : Extract.Gives s c (ofSearch (outputOf id)) e₁ fun _ e' => e' = e₁ :=
        gives_ofSearch he₁ (Search.ensures_outputOf.mpr ⟨he₁.run, .refl _, rfl⟩)
      refine houtput.bind fun out e₂ he₂ hg₂ heq => ?_
      subst heq
      split
      · refine (hpaced rule p q _ he₂ (hg₁.run.within hp) hadv₁ (hg₁.inside hinside) hpq).bind
          fun found e₃ he₃ hg₃ hfound => ?_
        exact .pure he₃ (hfound.of_stores hsearches.stores)
      · exact .pure he₂ ⟨hsearches.stores, hadv₁⟩

mutual

/-- Every rule advances an extraction over what it matches. -/
theorem build_advances (hbranch : s.FaithfulBranches c branch)
    (hpaced : s.PacedBranches c d branch) :
    ∀ (rule : Rule) {e : Extraction} {p q : Position}, e.Valid s c → e.run.Within c p →
      e.Advanced p → e.Inside p q → p.Upto q →
      Extract.Gives s c (s.build branch rule p q) e (e.Advances s d p q)
  | .terminal tag, e, p, q, he, hp, hadv, _, hpq => by
      rw [Session.build]
      exact forward_advances he hadv (buildTerminal_advances tag he hp hadv hpq)
  | .nonterminal rule, e, p, q, he, hp, hadv, hinside, hpq => by
      rw [Session.build]
      exact forward_advances he hadv
        (buildNonterminal_advances hpaced rule he hp hadv hinside hpq)
  | .sequence items, e, p, q, he, hp, hadv, hinside, _ => by
      rw [Session.build, fragments_eq]
      exact forward_advances he hadv (Fragment.inSequence_advances
        (fragments_paced hbranch hpaced items) he hp hadv hinside)
  | .optional body, e, p, q, he, hp, hadv, hinside, hpq => by
      rw [Session.build]
      refine forward_advances he hadv ?_
      refine (build_advances hbranch hpaced body he hp hadv hinside hpq).bind
        fun found e₁ he₁ _ hfound => ?_
      cases found with
      | some nodes => exact .pure he₁ hfound
      | none => exact nothing_advances he₁ hfound.1 hfound.2
  | .repetition body, e, p, q, he, hp, hadv, hinside, _ => by
      rw [Session.build]
      refine forward_advances he hadv ?_
      refine ensures_bind.mpr (ensures_get.mpr ?_)
      have hbody : Fragment.Paced s c d body ⟨s.reach body, s.build branch body⟩ :=
        ⟨fragment_faithful hbranch body, s.reach_searches body,
          build_advances hbranch hpaced body⟩
      exact hbody.inRepetition_advances he hp hadv hinside
  | .alternation choices, e, p, q, he, hp, hadv, hinside, hpq => by
      rw [Session.build]
      exact forward_advances he hadv
        (buildFirst_advances hbranch hpaced choices he hp hadv hinside hpq)
  | .switch feature body, e, p, q, he, hp, hadv, hinside, hpq => by
      rw [Session.build]
      refine forward_advances he hadv ?_
      split
      · exact build_advances hbranch hpaced body he hp hadv hinside hpq
      · exact nothing_advances he (.refl _) hadv

/-- An alternative that does not match leaves the next one where it was itself. -/
theorem buildFirst_advances (hbranch : s.FaithfulBranches c branch)
    (hpaced : s.PacedBranches c d branch) :
    ∀ (choices : List Rule) {e : Extraction} {p q : Position}, e.Valid s c → e.run.Within c p →
      e.Advanced p → e.Inside p q → p.Upto q →
      Extract.Gives s c (s.buildFirst branch choices p q) e (e.Advances s d p q)
  | [], e, p, q, he, _, hadv, _, _ => by
      rw [Session.buildFirst]
      exact .pure he ⟨.refl _, hadv⟩
  | choice :: choices, e, p, q, he, hp, hadv, hinside, hpq => by
      rw [Session.buildFirst]
      refine (build_advances hbranch hpaced choice he hp hadv hinside hpq).bind
        fun found e₁ he₁ hg₁ hfound => ?_
      cases found with
      | some nodes => exact .pure he₁ hfound
      | none =>
          refine (buildFirst_advances hbranch hpaced choices he₁ (hg₁.run.within hp) hfound.2
            (hg₁.inside hinside) hpq).mono fun _ _ _ _ hrest => ?_
          exact hrest.of_stores hfound.1

theorem fragments_paced (hbranch : s.FaithfulBranches c branch)
    (hpaced : s.PacedBranches c d branch) : ∀ (items : List Rule), ∀ item ∈ items,
      Fragment.Paced s c d item ⟨s.reach item, s.build branch item⟩
  | [], _, hitem => absurd hitem List.not_mem_nil
  | item :: items, i, hi => by
      by_cases h : i = item
      · rw [h]
        exact ⟨fragment_faithful hbranch item, s.reach_searches item,
          build_advances hbranch hpaced item⟩
      · have hi' : i ∈ items := (List.mem_cons.mp hi).resolve_left h
        exact fragments_paced hbranch hpaced items i hi'

end

/-- What was put away may be used again over no text only: all else lies behind. -/
theorem reuse_advances {fresh : Extract (Option Branch)} (he : e.Valid s c) (hadv : e.Advanced p)
    (hpq : p.Upto q)
    (hfresh : (⟨rule, p, q⟩ : Stretch) ∉ e.active → (⟨rule, p, q⟩ : Stretch) ∉ e.built →
      Extract.Gives s c fresh e fun found e' =>
        e.Advances s d p q (found.map fun b => [b.tree]) e') :
    Extract.Gives s c (reuse ⟨rule, p, q⟩ fresh) e fun found e' =>
      e.Advances s d p q (found.map fun b => [b.tree]) e' := by
  refine ensures_reuse (fun b hb => ?_) (fun _ => ⟨he, .refl e, .refl _, hadv⟩)
    fun hb hactive => hfresh hactive fun hmem => by
      simp [Std.TreeMap.getElem?_eq_some_getElem hmem] at hb
  have hsame : p = q := by
    by_contra hne
    have hle := hadv.behind _ b hb hne
    have hlt := hpq.lt_of_ne hne
    dsimp only at hle
    omega
  have hhollow := hadv.hollow _ b hb hsame
  exact ⟨he, .refl e, .refl _, hadv.upto hpq, .inl ⟨hsame, hhollow⟩⟩

/-- The body of a rule, if the grammar has the rule. -/
theorem body_advances (hbranch : s.FaithfulBranches c branch) (hpaced : s.PacedBranches c d branch)
    (rule : RuleId) (he : e.Valid s c) (hp : e.run.Within c p) (hadv : e.Advanced p)
    (hinside : e.Inside p q) (hpq : p.Upto q) :
    Extract.Gives s c
      (match s.grammar.rule? rule with
        | some definition => s.build branch definition.body p q
        | none => pure none) e (e.Advances s d p q) := by
  split
  · exact build_advances hbranch hpaced _ he hp hadv hinside hpq
  · exact .pure he ⟨.refl _, hadv⟩

theorem branchFresh_advances (hbranch : s.FaithfulBranches c branch)
    (hpaced : s.PacedBranches c d branch) (he : e.Valid s c) (hp : e.run.Within c p)
    (hadv : e.Advanced p) (hinside : e.Inside p q) (hpq : p.Upto q)
    (hactive : (⟨rule, p, q⟩ : Stretch) ∉ e.active) (hbuilt : (⟨rule, p, q⟩ : Stretch) ∉ e.built) :
    Extract.Gives s c (s.branchFresh branch ⟨rule, p, q⟩) e fun found e' =>
      e.Advances s (d + 1) p q (found.map fun b => [b.tree]) e' := by
  have he₁ : (e.enter ⟨rule, p, q⟩).Valid s c := ⟨he.run, he.built⟩
  have hbody := body_advances hbranch hpaced rule he₁ hp (hadv.enter hbuilt) (hinside.enter rule)
    hpq
  refine ((branchFresh_gives hbranch rule p q he hp hactive).also ?_).mono
    fun _ _ _ _ hpost => hpost.2
  refine ensures_branchFresh hbody (fun _ _ _ => nofun) (fun e₂ hpost found heq => ?_)
    fun children e₂ hpost found heq => ?_
  · obtain rfl := Except.ok.inj heq
    obtain ⟨-, -, hstores, hadv₂⟩ := hpost
    exact ⟨hstores, hadv₂.leave⟩
  · obtain rfl := Except.ok.inj heq
    obtain ⟨-, hg₂, hstores, hadv₂, hshallow⟩ := hpost
    have hentered : (⟨rule, p, q⟩ : Stretch) ∈ e₂.active :=
      (hg₂.active _).mpr (Std.TreeSet.mem_insert_self)
    exact ⟨hstores.trans Extraction.stores_put,
      hadv₂.leave_put (b := ⟨s.grammar.name rule, ⟨p, q⟩, children⟩) hshallow rfl hentered⟩

/-- Each level that is left is one more branch that spans text. -/
theorem branchWithin_advances (depth : Nat) :
    s.PacedBranches c depth fun rule p q => s.branchWithin depth rule p q := by
  induction depth with
  | zero =>
      intro rule p q e he _ hadv _ hpq
      exact reuse_advances he hadv hpq fun _ _ => ensures_throw.mpr ⟨he, .refl e, rfl⟩
  | succ depth ih =>
      intro rule p q e he hp hadv hinside hpq
      exact reuse_advances he hadv hpq fun hactive hbuilt =>
        branchFresh_advances (branchWithin_faithful depth) ih he hp hadv hinside hpq hactive hbuilt

/-- The branches of a tree that span some text nest no deeper than the bound allows, and all of them
no more levels deeper than the grammar has rules. -/
theorem parse_nesting {trailing : Bool} {start : Position} {r : Parse}
    (h : s.parse trailing start = .ok r) :
    r.tree.tree.spanning ≤ s.maxDepth ∧
      r.tree.tree.nesting ≤ s.maxDepth + s.grammar.rules.length := by
  obtain ⟨rule, hselect⟩ := selects_of_parse h
  obtain ⟨root, run, stop, e, hderive, hwinner, hbranch, -⟩ := parse_eq_ok hselect h
  obtain ⟨hv, hm, hmem⟩ :=
    narrowed_valid (c := .everywhere s.source) trivial hderive hwinner
  have hadvances := branchWithin_advances s.maxDepth rule start stop _ (Extraction.valid_start hv)
    (.inl trivial) (Extraction.advanced_start _ start) (fun _ hmem => by simp at hmem)
    (hv.settled_upto _ (hv.known hm hmem))
  obtain ⟨he, -, -, -, hshallow⟩ := hadvances.of_run hbranch
  simpa [Tree.spanningAll, Tree.nestingAll] using hshallow.bounds he

/-- The tree of a list keeps to the bound. -/
theorem parse_nesting_lists : ∃ r,
    (Samples.listSession "a,a").parse true .start = .ok r ∧
      r.tree.tree.spanning ≤ 8 ∧ r.tree.tree.nesting ≤ 8 + 2 := by
  obtain ⟨run, hderive, -, hwinner, -, hsome⟩ := listSession_derived true
  obtain ⟨r, hparse⟩ := parse_of_branch rfl hderive hwinner hsome
  exact ⟨r, hparse, parse_nesting hparse⟩

end Session

/-- No text, read with nesting bounded by three by
`Root: Low High; Low: Ground; Ground: [A]; High: Middle; Middle: Low;`. -/
def Samples.lowAndHigh : Session := .ofText { lists with
  rules := [⟨"Root", .sequence [.nonterminal 1, .nonterminal 3]⟩, ⟨"Low", .nonterminal 2⟩,
    ⟨"Ground", .optional (.terminal 0)⟩, ⟨"High", .nonterminal 4⟩,
    ⟨"Middle", .nonterminal 1⟩] } ∅ "" none 3

/-- The branch of `Low` is put away on the second level and used again on the fourth one, past the
bound. -/
theorem Session.parse_nests_deeper : ∃ r, Samples.lowAndHigh.parse true .start = .ok r ∧
    Samples.lowAndHigh.maxDepth < r.tree.tree.nesting := by
  have hroot : ((Samples.lowAndHigh.derive 0 .start).run.run {}).1 = .ok 4 :=
    ok_of_toOption (by decide +kernel)
  have hderive : (Samples.lowAndHigh.derive 0 .start).run.run {} = (.ok 4, _) := Prod.ext hroot rfl
  have hpaths : (((Samples.lowAndHigh.derive 0 .start).run.run {}).2.arena.output 4).toList =
      [.start] := by decide +kernel
  have hwinner : Samples.lowAndHigh.winner? true
      (((Samples.lowAndHigh.derive 0 .start).run.run {}).2.arena.output 4) = some .start := by
    simp only [winner?_eq_some, ← Std.ExtTreeSet.mem_toList, hpaths]
    decide +kernel
  have hdeep : ((Samples.lowAndHigh.branch 0 .start .start).run.run
      ⟨((Samples.lowAndHigh.derive 0 .start).run.run {}).2.setOutput 4 {.start}, ∅,
        ∅⟩).1.toOption.map (Option.map fun b => b.tree.nesting) = some (some 5) := by decide +kernel
  obtain ⟨found, hfound, hnesting⟩ := Option.map_eq_some_iff.mp hdeep
  obtain ⟨b, rfl, hb⟩ := Option.map_eq_some_iff.mp hnesting
  refine ⟨_, parse_eq_of_winner rfl hderive hwinner (Prod.ext (ok_of_toOption hfound) rfl), ?_⟩
  dsimp only
  rw [hb]
  decide

end Multipath
