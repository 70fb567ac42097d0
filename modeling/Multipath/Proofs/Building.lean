import Multipath.Proofs.Repetitions

/-!
Building matches and branches. Every rule is built as promised when references are, by one case
for each combinator; and references are, by recursion on the depth left. A branch rests on nodes
that were completed before its own, so while its stretch is under way nothing bars what its body
was derived from.
-/

namespace Multipath

open Search (attempt outputOf readToken)
open Extract (ofSearch)

variable {s : Session} {c : Scope s.source} {e : Extraction}

theorem Extraction.Clear.of_le {m n : Nat} {p q : Position} (h : e.Clear n p q) (hle : m ≤ n) :
    e.Clear m p q := by
  intro stretch hmem
  obtain ⟨hstart, hstop, hsame⟩ := h stretch hmem
  refine ⟨hstart, hstop, fun hp hq => ?_⟩
  obtain ⟨id, hid, hm⟩ := hsame hp hq
  exact ⟨id, by omega, hm⟩

/-- Nothing is promised against the direction of the text. -/
theorem forward_gives (rule : Rule) (start stop : Position) (x : Extract (Option (List Tree)))
    (he : e.Valid s c) (hx : Extract.Gives s c x e (e.Fulfils s rule start stop)) :
    Extract.Gives s c (Session.forward start stop x) e (e.Fulfils s rule start stop) := by
  unfold Session.forward
  split
  · next hlt =>
      refine .pure he fun hpr => ?_
      obtain ⟨n, -, hl⟩ := hpr
      exact (he.run.leads_upto hl).le hlt
  · exact hx

theorem buildTerminal_gives (tag : TagId) (start stop : Position) (he : e.Valid s c)
    (hstart : e.run.Within c start) :
    Extract.Gives s c (s.buildTerminal tag start stop) e
      (e.Fulfils s (.terminal tag) start stop) := by
  have hread : Extract.Gives s c (ofSearch (readToken s.source start)) e fun r e' =>
      e'.run.lexer.cache[start.index]? = some r := by
    refine gives_ofSearch he ((readToken_spec he.run hstart).mono ?_)
    intro result run' hpost
    obtain ⟨hv', honly, r, rfl, hr⟩ := hpost
    exact ⟨hv', honly.grows, hr⟩
  refine hread.bind fun r e₁ he₁ hg₁ hr => ?_
  -- a promised token is the one that was read
  have hpromised : e.Promises s (.terminal tag) start stop →
      ∃ t, r = .ok t ∧ t.hasTag tag = true ∧ t.span.stop = stop := by
    intro hpr
    obtain ⟨n, -, hl⟩ := hpr
    cases hl with
    | @terminal _ _ t ht htag =>
        exact ⟨t, Option.some.inj (hr.symm.trans (hg₁.run.reads ht)), htag, rfl⟩
  cases r with
  | error f =>
      refine .pure he₁ fun hpr => ?_
      obtain ⟨t, ht, -⟩ := hpromised hpr
      cases ht
  | ok token =>
      dsimp only
      split
      · next hif =>
          simp only [Bool.and_eq_true, decide_eq_true_eq] at hif
          obtain ⟨htag, hstop⟩ := hif
          refine .pure he₁ ?_
          rw [← hstop]
          exact .terminal hr htag
      · next hif =>
          refine .pure he₁ fun hpr => ?_
          obtain ⟨t, ht, htag, hstop⟩ := hpromised hpr
          obtain rfl := Except.ok.inj ht
          exact hif (by simp [htag, hstop])

/-- A branch that was found is an instance, and one was found for what a node says unless that is
barred. -/
def Extraction.Delivers (s : Session) (e : Extraction) (rule : RuleId) (p q : Position)
    (found : Option Branch) (e' : Extraction) : Prop :=
  match found with
  | some b => s.grammar.Instance e'.run.Reads e'.run.Known rule p q b
  | none => ∀ id, e.run.memo.find? p rule = some (.succeeded id) →
      q ∈ e.run.arena.output id → ¬e.Clear (id + 1) p q

def Session.FaithfulBranches (s : Session) (c : Scope s.source) (branch : Session.BranchBuilder) :
    Prop :=
  ∀ rule p q e, Extraction.Valid s c e → e.run.Within c p →
    Extract.Gives s c (branch rule p q) e (e.Delivers s rule p q)

/-- A rule that is derived in between is known from then on, and it is found if it was known. -/
theorem derive_gives (rule : RuleId) (start : Position) (he : e.Valid s c)
    (hstart : e.run.Within c start) :
    Extract.Gives s c (ofSearch (attempt (s.derive rule start))) e fun result e' =>
      (∀ id, result = .ok id → e'.run.memo.find? start rule = some (.succeeded id)) ∧
        ∀ id, e.run.memo.find? start rule = some (.succeeded id) → result = .ok id := by
  have hknown : Ensures (s.derive rule start) e.run fun result _ =>
      ∀ id, e.run.memo.find? start rule = some (.succeeded id) → result = .ok id :=
    fun id hm => (s.deriveWithin_settled _ hm (by simp)).1
  refine gives_attempt he (Ensures.mono
    ((Session.derive_sound rule start e.run he.run hstart).and hknown) ?_)
  intro result run' hpost
  obtain ⟨⟨hv', hg, hfound⟩, hknown⟩ := hpost
  exact ⟨hv', hg, fun _ => ⟨hfound, hknown⟩⟩

theorem buildNonterminal_gives {branch : Session.BranchBuilder}
    (hbranch : s.FaithfulBranches c branch) (rule : RuleId) (start stop : Position)
    (he : e.Valid s c) (hstart : e.run.Within c start) :
    Extract.Gives s c (s.buildNonterminal branch rule start stop) e
      (e.Fulfils s (.nonterminal rule) start stop) := by
  refine (derive_gives rule start he hstart).bind fun result e₁ he₁ hg₁ hpost => ?_
  obtain ⟨hfound, hknown⟩ := hpost
  cases result with
  | error f =>
      refine .pure he₁ fun hpr => ?_
      obtain ⟨n, -, hl⟩ := hpr
      cases hl with
      | nonterminal hs =>
          obtain ⟨id, -, hm, -⟩ := hs
          cases hknown id hm
  | ok id =>
      have hm := hfound id rfl
      have houtput : Extract.Gives s c (ofSearch (outputOf id)) e₁ fun out e' =>
          e' = e₁ ∧ out = e₁.run.arena.output id :=
        gives_ofSearch he₁ (Search.ensures_outputOf.mpr ⟨he₁.run, .refl _, rfl, rfl⟩)
      refine houtput.bind fun out e₂ he₂ hg₂ heq => ?_
      obtain ⟨rfl, rfl⟩ := heq
      split
      · next hmem =>
          refine (hbranch rule start stop e₂ he₂ (hg₁.run.within hstart)).bind
            fun found e₃ he₃ hg₃ hfound => ?_
          cases found with
          | some b =>
              obtain ⟨hname, hspan, definition, hdef, hbody⟩ := hfound
              refine .pure he₃ ?_
              have hback := hg₃.run.known he₂.run he₃.run (he₂.run.known hm hmem)
              have htree : b.tree = .branch (s.grammar.name rule) ⟨start, stop⟩ b.children := by
                rw [Branch.tree, hname, hspan]
              simp only [Option.map_some, Extraction.Fulfils, htree]
              exact .nonterminal hdef hback hbody
          | none =>
              refine .pure he₃ fun hpr => ?_
              obtain ⟨n, hclear, hl⟩ := hpr
              cases hl with
              | nonterminal hs =>
                  obtain ⟨id', hid', hm', -⟩ := hs
                  obtain rfl := Except.ok.inj (hknown id' hm')
                  exact hfound id hm hmem (hg₁.clear (hclear.of_le hid'))
      · next hmem =>
          refine .pure he₂ fun hpr => ?_
          obtain ⟨n, -, hl⟩ := hpr
          cases hl with
          | nonterminal hs =>
              obtain ⟨id', -, hm', hq⟩ := hs
              obtain rfl := Except.ok.inj (hknown id' hm')
              exact hmem (by rwa [hg₁.run.output he.run hm'])

/-- Between two positions that are the same there is nothing. -/
theorem nothing_gives {rule : Rule} {start stop : Position} {e₀ : Extraction} (he : e.Valid s c)
    (hsame : e.run.Matches s rule start start [])
    (hne : start ≠ stop → ¬e₀.Promises s rule start stop) :
    Extract.Gives s c (pure (Session.nothing start stop)) e (e₀.Fulfils s rule start stop) := by
  refine .pure he ?_
  unfold Session.nothing
  split
  · next heq =>
      rw [← heq]
      exact hsame
  · next hdiffer => exact hne hdiffer

theorem fragments_eq (s : Session) (branch : Session.BranchBuilder) (items : List Rule) :
    s.fragments branch items = items.map fun item => ⟨s.reach item, s.build branch item⟩ := by
  induction items with
  | nil => rfl
  | cons item items ih => simp [Session.fragments, ih]

mutual

/-- Every rule is built as promised. -/
theorem build_gives {branch : Session.BranchBuilder} (hbranch : s.FaithfulBranches c branch) :
    ∀ (rule : Rule) (start stop : Position) (e : Extraction), e.Valid s c →
      e.run.Within c start →
      Extract.Gives s c (s.build branch rule start stop) e (e.Fulfils s rule start stop)
  | .terminal tag, start, stop, e, he, hstart => by
      rw [Session.build]
      exact forward_gives _ _ _ _ he (buildTerminal_gives tag start stop he hstart)
  | .nonterminal rule, start, stop, e, he, hstart => by
      rw [Session.build]
      exact forward_gives _ _ _ _ he (buildNonterminal_gives hbranch rule start stop he hstart)
  | .sequence items, start, stop, e, he, hstart => by
      rw [Session.build, fragments_eq]
      refine forward_gives _ _ _ _ he ?_
      exact Fragment.inSequence_gives _ items (fragments_faithful hbranch items) start stop e he
        hstart
  | .optional body, start, stop, e, he, hstart => by
      rw [Session.build]
      refine forward_gives _ _ _ _ he ?_
      refine (build_gives hbranch body start stop e he hstart).bind
        fun found e₁ he₁ _ hfound => ?_
      cases found with
      | some nodes => exact .pure he₁ (.take hfound)
      | none =>
          refine nothing_gives he₁ .skip fun hne hpr => ?_
          obtain ⟨n, hclear, hl⟩ := hpr
          cases hl with
          | skip => exact hne rfl
          | take hbody => exact hfound ⟨n, hclear, hbody⟩
  | .repetition body, start, stop, e, he, hstart => by
      rw [Session.build]
      refine forward_gives _ _ _ _ he ?_
      refine ensures_bind.mpr (ensures_get.mpr ?_)
      have hbody : Fragment.Faithful s c body ⟨s.reach body, s.build branch body⟩ :=
        ⟨fun c e paths stop => reach_gives body paths stop,
          fun e p q he hp => build_gives hbranch body p q e he hp⟩
      exact hbody.inRepetition_gives start stop e he hstart
  | .alternation choices, start, stop, e, he, hstart => by
      rw [Session.build]
      refine forward_gives _ _ _ _ he ?_
      exact buildFirst_gives hbranch choices start stop e he hstart
  | .switch feature body, start, stop, e, he, hstart => by
      rw [Session.build]
      refine forward_gives _ _ _ _ he ?_
      split
      · next hon =>
          refine (build_gives hbranch body start stop e he hstart).mono
            fun found e₁ _ _ hfound => ?_
          cases found with
          | some nodes => exact .enabled hon hfound
          | none =>
              intro hpr
              obtain ⟨n, hclear, hl⟩ := hpr
              cases hl with
              | enabled _ hbody => exact hfound ⟨n, hclear, hbody⟩
              | disabled hoff => rw [hon] at hoff; cases hoff
      · next hoff =>
          refine nothing_gives he (.disabled (by simpa using hoff)) fun hne hpr => ?_
          obtain ⟨n, -, hl⟩ := hpr
          cases hl with
          | enabled hon _ => exact hoff hon
          | disabled _ => exact hne rfl

theorem buildFirst_gives {branch : Session.BranchBuilder} (hbranch : s.FaithfulBranches c branch) :
    ∀ (choices : List Rule) (start stop : Position) (e : Extraction), e.Valid s c →
      e.run.Within c start →
      Extract.Gives s c (s.buildFirst branch choices start stop) e
        (e.Fulfils s (.alternation choices) start stop)
  | [], start, stop, e, he, _ => by
      rw [Session.buildFirst]
      refine .pure he fun hpr => ?_
      obtain ⟨n, -, hl⟩ := hpr
      cases hl with
      | choice hmem _ => cases hmem
  | choice :: choices, start, stop, e, he, hstart => by
      rw [Session.buildFirst]
      refine (build_gives hbranch choice start stop e he hstart).bind
        fun found e₁ he₁ hg₁ hfound => ?_
      cases found with
      | some nodes => exact .pure he₁ (.choice List.mem_cons_self hfound)
      | none =>
          refine (buildFirst_gives hbranch choices start stop e₁ he₁ (hg₁.run.within hstart)).mono
            fun found e₂ _ _ hrest => ?_
          cases found with
          | some nodes =>
              cases hrest with
              | choice hmem hmatch => exact .choice (List.mem_cons_of_mem _ hmem) hmatch
          | none =>
              intro hpr
              obtain ⟨n, hclear, hl⟩ := hpr
              cases hl with
              | choice hmem hl =>
                  obtain rfl | hmem := List.mem_cons.mp hmem
                  · exact hfound ⟨n, hclear, hl⟩
                  · exact hrest (hg₁.promises he ⟨n, hclear, .choice hmem hl⟩)

theorem fragments_faithful {branch : Session.BranchBuilder}
    (hbranch : s.FaithfulBranches c branch) : ∀ (items : List Rule), ∀ item ∈ items,
      Fragment.Faithful s c item ⟨s.reach item, s.build branch item⟩
  | [], _, hitem => absurd hitem List.not_mem_nil
  | item :: items, i, hi => by
      by_cases h : i = item
      · rw [h]
        exact ⟨fun c e paths stop => reach_gives item paths stop,
          fun e p q he hp => build_gives hbranch item p q e he hp⟩
      · have hi' : i ∈ items := (List.mem_cons.mp hi).resolve_left h
        exact fragments_faithful hbranch items i hi'

end

theorem fragment_faithful {branch : Session.BranchBuilder} (hbranch : s.FaithfulBranches c branch)
    (item : Rule) : Fragment.Faithful s c item ⟨s.reach item, s.build branch item⟩ :=
  fragments_faithful hbranch [item] item List.mem_cons_self

/-- A branch that is there is taken, none is made for a stretch under way, and otherwise `fresh`
has to make one. -/
theorem ensures_reuse {stretch : Stretch} {fresh : Extract (Option Branch)}
    {post : Except Failure (Option Branch) → Extraction → Prop}
    (hbuilt : ∀ b, e.built[stretch]? = some b → post (.ok (some b)) e)
    (hactive : stretch ∈ e.active → post (.ok none) e)
    (hfresh : e.built[stretch]? = none → stretch ∉ e.active → Ensures fresh e post) :
    Ensures (Session.reuse stretch fresh) e post := by
  refine ensures_bind.mpr (ensures_get.mpr ?_)
  dsimp only
  split
  · next b hb => exact ensures_pure.mpr (hbuilt b hb)
  · next hnone =>
      split
      · next hmem => exact ensures_pure.mpr (hactive (Std.TreeSet.mem_iff_contains.mpr hmem))
      · next hmem => exact hfresh hnone (mt Std.TreeSet.mem_iff_contains.mp hmem)

theorem reuse_gives (rule : RuleId) (p q : Position) (fresh : Extract (Option Branch))
    (he : e.Valid s c)
    (hfresh : (⟨rule, p, q⟩ : Stretch) ∉ e.active →
      Extract.Gives s c fresh e (e.Delivers s rule p q)) :
    Extract.Gives s c (Session.reuse ⟨rule, p, q⟩ fresh) e (e.Delivers s rule p q) := by
  refine ensures_reuse (fun b hb => ⟨he, .refl e, he.built _ b hb⟩) (fun hactive => ?_)
    fun _ => hfresh
  refine ⟨he, .refl e, fun id hm _ hclear => ?_⟩
  obtain ⟨-, -, hsame⟩ := hclear ⟨rule, p, q⟩ hactive
  obtain ⟨id', hid', hm'⟩ := hsame rfl rfl
  obtain rfl : id = id' := by simpa [hm] using hm'
  omega

theorem ensures_outcome_extract {α : Type} {x : Extract α}
    {post : Except Failure (Except Failure α) → Extraction → Prop} :
    Ensures (Extract.outcome x) e post ↔ Ensures x e fun result => post (.ok result) := Iff.rfl

/-- A stretch is under way. -/
def Extraction.enter (e : Extraction) (stretch : Stretch) : Extraction :=
  { e with active := e.active.insert stretch }

/-- A stretch is no longer under way. -/
def Extraction.leave (e : Extraction) (stretch : Stretch) : Extraction :=
  { e with active := e.active.erase stretch }

/-- Taking a stretch away again that was not there before. -/
theorem Stretch.mem_erase_iff {before after : Std.TreeSet Stretch} {stretch : Stretch}
    (h : ∀ other, other ∈ after ↔ other ∈ before.insert stretch) (hnew : stretch ∉ before)
    (other : Stretch) : other ∈ after.erase stretch ↔ other ∈ before := by
  have hother := h other
  simp only [Std.TreeSet.mem_insert, Std.LawfulEqOrd.compare_eq_iff_eq] at hother
  simp only [Std.TreeSet.mem_erase, hother, ne_eq, Std.LawfulEqOrd.compare_eq_iff_eq]
  constructor
  · exact fun hmem => hmem.2.resolve_left hmem.1
  · exact fun hmem => ⟨fun heq => hnew (heq ▸ hmem), .inr hmem⟩

/-- What happens while a stretch is under way leaves the others under way. -/
theorem Extraction.Grows.leave {stretch : Stretch} {e' : Extraction}
    (h : (e.enter stretch).Grows e') (hactive : stretch ∉ e.active) :
    e.Grows (e'.leave stretch) := ⟨h.run, Stretch.mem_erase_iff h.active hactive⟩

/-- While a stretch is under way, what its node rests on is promised for the body. -/
theorem Extraction.Valid.promises_body (he : e.Valid s c) {rule : RuleId} {p q : Position}
    {id : NodeId} (hm : e.run.memo.find? p rule = some (.succeeded id))
    (hq : q ∈ e.run.arena.output id) (hclear : e.Clear (id + 1) p q) :
    ∃ definition, s.grammar.rule? rule = some definition ∧
      (e.enter ⟨rule, p, q⟩).Promises s definition.body p q := by
  obtain ⟨out, hd, -⟩ := he.run.settled p rule id hm
  obtain ⟨definition, hdef, hleads⟩ := he.run.backed id rule p out hd
  rw [Arena.output_of_derived hd] at hq
  refine ⟨definition, hdef, id, fun stretch hmem => ?_, hleads q hq⟩
  simp only [enter, Std.TreeSet.mem_insert, Std.LawfulEqOrd.compare_eq_iff_eq] at hmem
  obtain rfl | hmem := hmem
  · exact ⟨Nat.le_refl _, Nat.le_refl _, fun _ _ => ⟨id, Nat.le_refl _, hm⟩⟩
  · exact hclear.of_le (Nat.le_succ id) stretch hmem

theorem Extraction.Valid.insert_built (he : e.Valid s c) {stretch : Stretch} {b : Branch}
    (hb : s.grammar.Instance e.run.Reads e.run.Known stretch.rule stretch.start stretch.stop b) :
    Extraction.Valid s c { e with built := e.built.insert stretch b } where
  run := he.run
  built other b' hb' := by
    simp only [Std.TreeMap.getElem?_insert, Std.LawfulEqOrd.compare_eq_iff_eq] at hb'
    split at hb'
    · next heq =>
        cases hb'
        rw [← heq]
        exact hb
    · exact he.built other b' hb'

/-- The body of a rule, if the grammar has the rule. -/
theorem body_gives {branch : Session.BranchBuilder} (hbranch : s.FaithfulBranches c branch)
    (rule : RuleId) (p q : Position) (he : e.Valid s c) (hp : e.run.Within c p) :
    Extract.Gives s c
      (match s.grammar.rule? rule with
        | some definition => s.build branch definition.body p q
        | none => pure none) e fun found e' =>
      match found with
      | some ts => ∃ definition, s.grammar.rule? rule = some definition ∧
          e'.run.Matches s definition.body p q ts
      | none => ∀ definition, s.grammar.rule? rule = some definition →
          ¬e.Promises s definition.body p q := by
  split
  · next definition hdef =>
      refine (build_gives hbranch definition.body p q e he hp).mono fun found e' _ _ hfound => ?_
      cases found with
      | some ts => exact ⟨definition, hdef, hfound⟩
      | none =>
          intro definition' hdef'
          obtain rfl := Option.some.inj (hdef.symm.trans hdef')
          exact hfound
  · next hdef => exact .pure he fun definition hdef' => by cases hdef.symm.trans hdef'

/-- The body of a rule is built while the stretch is under way, and what is found is put away. -/
theorem ensures_branchFresh {branch : Session.BranchBuilder} {stretch : Stretch}
    {middle : Except Failure (Option (List Tree)) → Extraction → Prop}
    {post : Except Failure (Option Branch) → Extraction → Prop}
    (hbody : Ensures (match s.grammar.rule? stretch.rule with
      | some definition => s.build branch definition.body stretch.start stretch.stop
      | none => pure none) (e.enter stretch) middle)
    (herror : ∀ f e', middle (.error f) e' → post (.error f) (e'.leave stretch))
    (hnone : ∀ e', middle (.ok none) e' → post (.ok none) (e'.leave stretch))
    (hsome : ∀ children e', middle (.ok (some children)) e' →
      let b : Branch := ⟨s.grammar.name stretch.rule, ⟨stretch.start, stretch.stop⟩, children⟩
      post (.ok (some b))
        { e'.leave stretch with built := (e'.leave stretch).built.insert stretch b }) :
    Ensures (s.branchFresh branch stretch) e post := by
  unfold Session.branchFresh
  refine ensures_bind.mpr (ensures_modify.mpr (ensures_bind.mpr (ensures_outcome_extract.mpr ?_)))
  refine Ensures.mono hbody fun result e' hpost => ensures_bind.mpr (ensures_modify.mpr ?_)
  cases result with
  | error f => exact ensures_throw.mpr (herror f e' hpost)
  | ok found =>
      cases found with
      | none => exact ensures_pure.mpr (hnone e' hpost)
      | some children =>
          exact ensures_bind.mpr (ensures_modify.mpr (ensures_pure.mpr (hsome children e' hpost)))

theorem branchFresh_gives {branch : Session.BranchBuilder} (hbranch : s.FaithfulBranches c branch)
    (rule : RuleId) (p q : Position) (he : e.Valid s c) (hp : e.run.Within c p)
    (hactive : (⟨rule, p, q⟩ : Stretch) ∉ e.active) :
    Extract.Gives s c (s.branchFresh branch ⟨rule, p, q⟩) e (e.Delivers s rule p q) := by
  have he₁ : (e.enter ⟨rule, p, q⟩).Valid s c := ⟨he.run, he.built⟩
  have hleave {e₂ : Extraction} (he₂ : e₂.Valid s c) : (e₂.leave ⟨rule, p, q⟩).Valid s c :=
    ⟨he₂.run, he₂.built⟩
  refine ensures_branchFresh (body_gives hbranch rule p q he₁ hp) (fun f e₂ hpost => ?_)
    (fun e₂ hpost => ?_) fun children e₂ hpost => ?_ <;> obtain ⟨he₂, hg₂, hfound⟩ := hpost
  · exact ⟨hleave he₂, hg₂.leave hactive, hfound⟩
  · refine ⟨hleave he₂, hg₂.leave hactive, fun id hm hq hclear => ?_⟩
    obtain ⟨definition, hdef, hpr⟩ := he.promises_body hm hq hclear
    exact hfound definition hdef hpr
  · have hg : e.Grows (e₂.leave ⟨rule, p, q⟩) := hg₂.leave hactive
    have hinstance : s.grammar.Instance e₂.run.Reads e₂.run.Known rule p q
        ⟨s.grammar.name rule, ⟨p, q⟩, children⟩ := ⟨rfl, rfl, hfound⟩
    exact ⟨(hleave he₂).insert_built hinstance, ⟨hg.run, hg.active⟩, hinstance⟩

/-- Branches are delivered at every depth. -/
theorem branchWithin_faithful (depth : Nat) :
    s.FaithfulBranches c fun rule p q => s.branchWithin depth rule p q := by
  induction depth with
  | zero =>
      intro rule p q e he _
      exact reuse_gives rule p q _ he fun _ => ensures_throw.mpr ⟨he, .refl e, rfl⟩
  | succ depth ih =>
      intro rule p q e he hp
      exact reuse_gives rule p q _ he fun hactive => branchFresh_gives ih rule p q he hp hactive

theorem branch_gives (rule : RuleId) (p q : Position) (he : e.Valid s c)
    (hp : e.run.Within c p) :
    Extract.Gives s c (s.branch rule p q) e (e.Delivers s rule p q) :=
  branchWithin_faithful _ rule p q e he hp

end Multipath
