import Multipath.Proofs.Calls
import Multipath.Proofs.Derivations
import Multipath.Proofs.Links
import Multipath.Samples

/-!
The state of a run between calls. While rules are being derived, findings are open and nodes wait
for a parent; what a search that has come to an end leaves behind is told by `Run.Leaves`, and it is
the same whether it found paths, failed or ran into the bound on nesting. So after any calls the run
is at rest: nothing is open, every finding has been counted once, and findings and nodes are two
views of the same derivations.
-/

namespace Multipath

open Search (outcome outputOf)

namespace Memo

theorem mem_iff_find? {m : Memo} {p : Position} {rule : RuleId} :
    (⟨p, rule⟩ : Reference) ∈ m ↔ m.find? p rule ≠ none := by
  rw [find?, Std.TreeMap.mem_iff_isSome_getElem?]
  cases m[Reference.mk p rule]? <;> simp

theorem size_record_of_none {m : Memo} {p : Position} {rule : RuleId}
    (h : m.find? p rule = none) (finding : Finding) :
    (m.record p rule finding).size = m.size + 1 := by
  rw [record, Std.TreeMap.size_insert, if_neg]
  exact fun hmem => mem_iff_find?.mp hmem h

theorem size_record_of_some {m : Memo} {p : Position} {rule : RuleId} {found : Finding}
    (h : m.find? p rule = some found) (finding : Finding) :
    (m.record p rule finding).size = m.size := by
  rw [record, Std.TreeMap.size_insert, if_pos]
  exact mem_iff_find?.mpr (by simp [h])

end Memo

namespace Run

/-- The nodes below the rules being derived, which have no parent yet. -/
def waiting (run : Run) : List NodeId := run.frames.flatMap (·.children)

/-- What holds of a run at every moment, besides being valid. -/
structure Tidy (s : Session) (run : Run) : Prop where
  counted : run.stats.evaluations = run.memo.size
  maxDepth : run.stats.maxDepth ≤ s.maxDepth
  linked : run.arena.Linked run.waiting

/-- What a search leaves behind that has come to its end: the frames are those it met, all
findings it opened are settled, and what was there is still there, except that nodes may have got
a parent. -/
structure Leaves (s : Session) (run run' : Run) : Prop where
  tidy : run'.Tidy s
  above : run'.frames.tail = run.frames.tail
  height : run'.frames.length = run.frames.length
  memo : ∀ p rule finding,
    run.memo.find? p rule = some finding → run'.memo.find? p rule = some finding
  settled : ∀ p rule,
    run'.memo.find? p rule = some .inProgress → run.memo.find? p rule = some .inProgress
  nodes : ∀ id n, run.arena.node? id = some n →
    ∃ parent, run'.arena.node? id = some (Arena.under parent n)

variable {s : Session} {run run' run'' : Run} {rule : RuleId} {p : Position} {finding : Finding}

theorem Leaves.refl (h : run.Tidy s) : run.Leaves s run :=
  ⟨h, rfl, rfl, fun _ _ _ hm => hm, fun _ _ hm => hm, fun _ n hn => ⟨n.parent, hn⟩⟩

theorem Leaves.trans (h : run.Leaves s run') (h' : run'.Leaves s run'') : run.Leaves s run'' where
  tidy := h'.tidy
  above := h'.above.trans h.above
  height := h'.height.trans h.height
  memo p rule finding hm := h'.memo p rule finding (h.memo p rule finding hm)
  settled p rule hm := h.settled p rule (h'.settled p rule hm)
  nodes id n hn := by
    obtain ⟨parent, hn'⟩ := h.nodes id n hn
    obtain ⟨parent', hn''⟩ := h'.nodes id _ hn'
    exact ⟨parent', hn''⟩

/-- A search with room for `depth` more rules leaves things so. -/
def LeavesWithin (s : Session) (depth : Nat) (run run' : Run) : Prop :=
  run.Tidy s → run.frames.length + depth ≤ s.maxDepth → run.Leaves s run'

theorem leavesWithin_of_same {depth : Nat} (hframes : run'.frames = run.frames)
    (hmemo : run'.memo = run.memo) (harena : run'.arena = run.arena)
    (hevaluations : run'.stats.evaluations = run.stats.evaluations)
    (hdepth : run'.stats.maxDepth = run.stats.maxDepth) : LeavesWithin s depth run run' := by
  intro htidy _
  refine ⟨⟨?_, ?_, ?_⟩, by rw [hframes], by rw [hframes], ?_, ?_, ?_⟩
  · rw [hevaluations, hmemo]
    exact htidy.counted
  · rw [hdepth]
    exact htidy.maxDepth
  · rw [harena, waiting, hframes]
    exact htidy.linked
  · exact fun _ _ _ hm => by rwa [hmemo]
  · exact fun _ _ hm => by rwa [hmemo] at hm
  · exact fun _ n hn => ⟨n.parent, by rw [harena]; exact hn⟩

theorem leavesWithin_indifferent (depth : Nat) : Indifferent (LeavesWithin s depth) where
  refl run htidy _ := .refl htidy
  trans h h' htidy hdepth := by
    have hleaves := h htidy hdepth
    exact hleaves.trans (h' hleaves.tidy (by rwa [hleaves.height]))
  lexer run l := leavesWithin_of_same rfl rfl rfl rfl rfl
  noteFailure run p := leavesWithin_of_same rfl rfl rfl rfl rfl

theorem Tidy.enter (h : run.Tidy s) (hnone : run.memo.find? p rule = none)
    (hroom : run.frames.length < s.maxDepth) : (run.enter rule p).Tidy s where
  counted := by
    rw [(run.enter_records rule p).memo, Memo.size_record_of_none hnone]
    exact congrArg (· + 1) h.counted
  maxDepth := Nat.max_le.mpr ⟨h.maxDepth, hroom⟩
  linked := h.linked

/-- Closing the rule that was entered, with a finding that settles it. -/
theorem Leaves.close (h : (run.enter rule p).Leaves s run') (hnone : run.memo.find? p rule = none)
    (hrecords : run'.Records run'' p rule finding) (hfinding : finding ≠ .inProgress)
    (hstats : run''.stats = run'.stats) (habove : run''.frames.tail = run.frames.tail)
    (hheight : run''.frames.length = run.frames.length)
    (hlinked : run''.arena.Linked run''.waiting)
    (hnodes : ∀ id n, run'.arena.node? id = some n →
      ∃ parent, run''.arena.node? id = some (Arena.under parent n)) : run.Leaves s run'' := by
  have hentered := run.enter_records rule p
  have hopen : run'.memo.find? p rule = some .inProgress :=
    h.memo _ _ _ (by rw [hentered.find?, if_pos ⟨rfl, rfl⟩])
  refine ⟨⟨?_, by rw [hstats]; exact h.tidy.maxDepth, hlinked⟩, habove, hheight, ?_, ?_, ?_⟩
  · rw [hstats, hrecords.memo, Memo.size_record_of_some hopen]
    exact h.tidy.counted
  · intro q r found hm
    have hne : ¬(q = p ∧ r = rule) := by
      rintro ⟨rfl, rfl⟩
      cases hnone.symm.trans hm
    rw [hrecords.find?, if_neg hne]
    exact h.memo q r found (by rw [hentered.find?, if_neg hne]; exact hm)
  · intro q r hm
    rw [hrecords.find?] at hm
    split at hm
    · exact absurd (Option.some.inj hm) hfinding
    · next hne =>
        have hm' := h.settled q r hm
        rwa [hentered.find?, if_neg hne] at hm'
  · intro id n hn
    obtain ⟨parent, hn'⟩ := h.nodes id n hn
    obtain ⟨parent', hn''⟩ := hnodes id _ hn'
    exact ⟨parent', hn''⟩

theorem Leaves.frames_eq (h : (run.enter rule p).Leaves s run') :
    ∃ frame, run'.frames = frame :: run.frames := by
  have habove : run'.frames.tail = run.frames := h.above
  have hheight : run'.frames.length = run.frames.length + 1 := h.height
  cases hframes : run'.frames with
  | nil => simp [hframes] at hheight
  | cons frame frames => exact ⟨frame, by rw [← habove, hframes, List.tail_cons]⟩

theorem Leaves.fail (h : (run.enter rule p).Leaves s run') (hnone : run.memo.find? p rule = none)
    (f : Failure) : run.Leaves s (run'.fail rule p f) := by
  obtain ⟨frame, hframes⟩ := h.frames_eq
  have htail : (run'.fail rule p f).frames = run.frames := by simp [Run.fail, hframes]
  refine h.close hnone (run'.fail_records rule p f) nofun rfl (by rw [htail]) (by rw [htail]) ?_
    fun id n hn => ⟨n.parent, hn⟩
  have hlinked := h.tidy.linked
  rw [waiting, hframes, List.flatMap_cons] at hlinked
  rw [waiting, htail]
  exact hlinked.sublist (List.sublist_append_right _ _)

/-- A node that is attached waits for the innermost rule, if there is any. -/
theorem waiting_attach (node : NodeId) (frames : List Frame) :
    ((attach node frames).flatMap (·.children)).Sublist
      (node :: frames.flatMap (·.children)) := by
  cases frames with
  | nil => exact List.nil_sublist _
  | cons frame frames => exact List.Sublist.refl _

theorem attach_tail (node : NodeId) (frames : List Frame) :
    (attach node frames).tail = frames.tail ∧ (attach node frames).length = frames.length := by
  cases frames <;> exact ⟨rfl, rfl⟩

theorem Leaves.succeed (h : (run.enter rule p).Leaves s run')
    (hnone : run.memo.find? p rule = none) (out : PathSet) :
    run.Leaves s (run'.succeed rule p out).2 := by
  obtain ⟨frame, hframes⟩ := h.frames_eq
  have hattached : (run'.succeed rule p out).2.frames = attach run'.arena.size run.frames := by
    simp [Run.succeed, hframes, Arena.alloc]
  have harena : (run'.succeed rule p out).2.arena =
      (run'.arena.alloc
        { rule, start := p, output := out, children := frame.children.reverse }).2 := by
    simp [Run.succeed, hframes]
  have htail := attach_tail run'.arena.size run.frames
  refine h.close hnone (run'.succeed_records rule p out) (by simp) rfl (by rw [hattached, htail.1])
    (by rw [hattached, htail.2]) ?_ fun id n hn => ?_
  · have hlinked := h.tidy.linked
    rw [waiting, hframes, List.flatMap_cons] at hlinked
    rw [harena, waiting, hattached]
    exact (hlinked.alloc rule p out).sublist (waiting_attach _ _)
  · rw [harena]
    exact Arena.node?_alloc_of_node? hn _

end Run
namespace Session

variable {s : Session}

open Run (LeavesWithin leavesWithin_indifferent leavesWithin_of_same)

theorem deriveFresh_leaves {depth : Nat} {resolve : Resolver}
    (hres : ∀ r q, Keeps (LeavesWithin s depth) (resolve r q)) {rule : RuleId} {p : Position}
    {run : Run} (hnone : run.memo.find? p rule = none) :
    Ensures (s.deriveFresh resolve rule p) run fun _ run' =>
      LeavesWithin s (depth + 1) run run' := by
  refine ensures_deriveFresh.mpr ?_
  split
  · exact fun htidy _ => .refl htidy
  · next definition hdef =>
      have hbody := evaluate_keeps (leavesWithin_indifferent depth) (s := s) hres definition.body
        {p} (run.enter rule p)
      refine Ensures.mono hbody fun result run' hleaves => ?_
      have hentered : run.Tidy s → run.frames.length + (depth + 1) ≤ s.maxDepth →
          (run.enter rule p).Leaves s run' := by
        intro htidy hdepth
        have hheight : (run.enter rule p).frames.length = run.frames.length + 1 := rfl
        exact hleaves (htidy.enter hnone (by omega)) (by omega)
      cases result with
      | error f => exact fun htidy hdepth => (hentered htidy hdepth).fail hnone f
      | ok out => exact fun htidy hdepth => (hentered htidy hdepth).succeed hnone out

theorem consult_leaves {depth : Nat} {rule : RuleId} {p : Position} {fresh : Search NodeId}
    {run : Run} (hfresh : run.memo.find? p rule = none →
      Ensures fresh run fun _ run' => LeavesWithin s depth run run') :
    Ensures (consult rule p fresh) run fun _ run' => LeavesWithin s depth run run' := by
  refine ensures_consult.mpr ?_
  split
  · exact leavesWithin_of_same rfl rfl rfl rfl rfl
  · exact leavesWithin_of_same rfl rfl rfl rfl rfl
  · exact leavesWithin_of_same rfl rfl rfl rfl rfl
  · next hnone => exact hfresh hnone

theorem deriveWithin_leaves (depth : Nat) (rule : RuleId) (p : Position) :
    Keeps (LeavesWithin s depth) (s.deriveWithin depth rule p) := by
  induction depth generalizing rule p with
  | zero =>
      intro run
      exact consult_leaves fun _ => ensures_throw.mpr ((leavesWithin_indifferent 0).refl run)
  | succ depth ih =>
      intro run
      refine consult_leaves fun hnone => deriveFresh_leaves (fun r q => ?_) hnone
      have hsteady := (leavesWithin_indifferent (s := s) depth).toSteady
      exact (ih r q).bind hsteady (.outputOf hsteady)

end Session

section Resting
variable {s : Session} {run run' : Run}

/-- A run between calls. -/
structure Run.Resting (s : Session) (run : Run) : Prop where
  valid : run.Valid s (.everywhere s.source)
  tidy : run.Tidy s
  frames : run.frames = []
  settled : ∀ p rule, run.memo.find? p rule ≠ some .inProgress

theorem Run.resting_fresh (s : Session) : Run.Resting s {} where
  valid := valid_empty
  tidy := ⟨rfl, Nat.zero_le _, .empty⟩
  frames := rfl
  settled p rule h := by simp [Memo.find?] at h

theorem Run.Leaves.resting (h : run.Leaves s run') (hrest : run.Resting s)
    (hvalid : run'.Valid s (.everywhere s.source)) : run'.Resting s where
  valid := hvalid
  tidy := h.tidy
  frames := List.eq_nil_of_length_eq_zero (by rw [h.height, hrest.frames]; rfl)
  settled p rule hm := hrest.settled p rule (h.settled p rule hm)

/-- A run at rest has room for as many rules as the bound allows. -/
theorem Run.Resting.leaves (hrest : run.Resting s)
    (h : LeavesWithin s (s.maxDepth - run.frames.length) run run') : run.Leaves s run' :=
  h hrest.tidy (by rw [hrest.frames]; exact Nat.le_of_eq (Nat.zero_add _))

/-- Calls lead from rest to rest. -/
theorem Session.Calls.leaves (h : s.Calls run run') (hrest : run.Resting s) :
    run.Leaves s run' ∧ run'.Resting s := by
  induction h with
  | none => exact ⟨.refl hrest.tidy, hrest⟩
  | @follow run' rule input result run'' _ hrun ih =>
      obtain ⟨hleaves, hrest'⟩ := ih
      have hsteady := Run.leavesWithin_indifferent (s := s) (s.maxDepth - run'.frames.length)
      have hevaluate := evaluate_keeps (s := s) hsteady (fun r q => (deriveWithin_leaves _ r q).bind
        hsteady.toSteady (.outputOf hsteady.toSteady)) rule input run'
      have hfollow : run'.Leaves s run'' :=
        hrest'.leaves ((ensures_follow.mpr hevaluate).of_run hrun)
      have hvalid := ((follow_sound rule input run' hrest'.valid fun _ _ => .inl trivial).of_run
        hrun).1
      exact ⟨hleaves.trans hfollow, hfollow.resting hrest' hvalid⟩
  | @derive run' rule p result run'' _ hrun ih =>
      obtain ⟨hleaves, hrest'⟩ := ih
      have hderive : run'.Leaves s run'' := hrest'.leaves ((ensures_derive.mpr
        (deriveWithin_leaves _ rule p run')).of_run hrun)
      have hvalid := ((derive_sound rule p run' hrest'.valid (.inl trivial)).of_run hrun).1
      exact ⟨hleaves.trans hderive, hderive.resting hrest' hvalid⟩
  | @read run' p result run'' _ hrun ih =>
      obtain ⟨hleaves, hrest'⟩ := ih
      have hlexer : Ensures (Search.readToken s.source p) run' fun _ run'' =>
          Run.LeavesWithin s (s.maxDepth - run'.frames.length) run' run'' :=
        Search.ensures_readToken.mpr ((Run.leavesWithin_indifferent _).lexer run' _)
      have hread : run'.Leaves s run'' := hrest'.leaves (hlexer.of_run hrun)
      have hvalid := ((readToken_spec hrest'.valid (.inl trivial)).of_run hrun).1
      exact ⟨hleaves.trans hread, hread.resting hrest' hvalid⟩

/-- What is settled is looked up: deriving it again counts a memo hit and does nothing else. -/
theorem Session.derive_again {rule : RuleId} {p : Position} {finding : Finding}
    (hm : run.memo.find? p rule = some finding) (hsettled : finding ≠ .inProgress) :
    (s.derive rule p).run.run run = (finding.answer rule p, run.countMemoHit) := by
  have hlookup := ensures_derive.mpr (s.deriveWithin_settled _ hm hsettled)
  exact Prod.ext hlookup.1 hlookup.2

/-- A derivation ends in what is found about it from then on. -/
theorem Session.derive_recorded (rule : RuleId) (p : Position) (run : Run) :
    Ensures (s.derive rule p) run fun result run' => ∀ finding,
      run'.memo.find? p rule = some finding → result = finding.answer rule p := by
  have hconsult (fresh : Search NodeId) (hfresh : run.memo.find? p rule = none →
      Ensures fresh run fun result run' => ∀ finding,
        run'.memo.find? p rule = some finding → result = finding.answer rule p) :
      Ensures (consult rule p fresh) run fun result run' => ∀ finding,
        run'.memo.find? p rule = some finding → result = finding.answer rule p := by
    refine ensures_consult.mpr ?_
    split
    · next id hm => exact fun finding hm' => by cases hm.symm.trans hm'; rfl
    · next f hm => exact fun finding hm' => by cases hm.symm.trans hm'; rfl
    · next hm => exact fun finding hm' => by cases hm.symm.trans hm'; rfl
    · next hm => exact hfresh hm
  refine ensures_derive.mpr ?_
  cases s.maxDepth - run.frames.length with
  | zero =>
      refine hconsult _ fun hnone => ensures_throw.mpr fun finding hm => ?_
      cases hnone.symm.trans hm
  | succ depth =>
      refine hconsult _ fun hnone => ?_
      refine ensures_deriveFresh.mpr ?_
      split
      · intro finding hm
        cases hnone.symm.trans hm
      · refine Ensures.of_forall fun result run' => ?_
        cases result with
        | error f =>
            intro finding hm
            rw [(run'.fail_records rule p f).find?, if_pos ⟨rfl, rfl⟩] at hm
            cases hm
            rfl
        | ok out =>
            intro finding hm
            rw [(run'.succeed_records rule p out).find?, if_pos ⟨rfl, rfl⟩] at hm
            cases hm
            rfl

end Resting

section Counting

/-- The node of a success. -/
def Finding.node? : Finding → Option NodeId
  | .succeeded id => some id
  | _ => none

theorem Finding.node?_eq_some {finding : Finding} {id : NodeId} :
    finding.node? = some id ↔ finding = .succeeded id := by
  cases finding <;> simp [node?]

theorem Memo.mem_toList {m : Memo} {x : Reference × Finding} :
    x ∈ m.toList ↔ m.find? x.1.position x.1.rule = some x.2 := by
  rw [find?]
  exact Std.TreeMap.mem_toList_iff_getElem?_eq_some

theorem Memo.successes_eq (m : Memo) :
    m.successes = (m.toList.filterMap (·.2.node?)).length := by
  rw [successes, List.length_filterMap_eq_countP]
  refine List.countP_congr fun x _ => ?_
  cases x.2 <;> simp [Finding.isSuccess, Finding.node?]

variable {s : Session} {c : Scope s.source} {run : Run}

/-- A success is found for each node, and one node for each success. -/
theorem Run.Valid.succeeded_iff (hv : run.Valid s c) {p : Position} {rule : RuleId} {id : NodeId} :
    run.memo.find? p rule = some (.succeeded id) ↔
      ∃ n, run.arena.node? id = some n ∧ n.rule = rule ∧ n.start = p := by
  constructor
  · intro hm
    obtain ⟨out, hd, -⟩ := hv.settled p rule id hm
    obtain ⟨n, hn, hx⟩ := Option.map_eq_some_iff.mp hd
    cases hx
    exact ⟨n, hn, rfl, rfl⟩
  · rintro ⟨n, hn, rfl, rfl⟩
    exact hv.recorded id n.rule n.start n.output (by rw [Arena.derived?, hn]; rfl)

theorem Run.Valid.size_eq_successes (hv : run.Valid s c) :
    run.arena.size = run.memo.successes := by
  have hmem {id : NodeId} : id ∈ run.memo.toList.filterMap (·.2.node?) ↔ id < run.arena.size := by
    rw [List.mem_filterMap]
    constructor
    · rintro ⟨x, hx, hid⟩
      rw [Finding.node?_eq_some] at hid
      exact hv.lt_size ((Memo.mem_toList.mp hx).trans (congrArg some hid))
    · intro hlt
      have hn : run.arena.node? id = some run.arena.nodes[id] := Array.getElem?_eq_getElem hlt
      have hm := hv.succeeded_iff.mpr ⟨_, hn, rfl, rfl⟩
      exact ⟨(⟨_, _⟩, .succeeded id), Memo.mem_toList.mpr hm, rfl⟩
  -- two findings with one node are about the same rule and position
  have hnodup : (run.memo.toList.filterMap (·.2.node?)).Nodup := by
    refine List.pairwise_filterMap.mpr (Std.TreeMap.distinct_keys_toList.imp_of_mem ?_)
    intro x y hx hy hne id hid id' hid' heq
    rw [Finding.node?_eq_some] at hid hid'
    rw [← heq] at hid'
    obtain ⟨n, hn, hrule, hstart⟩ :=
      hv.succeeded_iff.mp ((Memo.mem_toList.mp hx).trans (congrArg some hid))
    obtain ⟨n', hn', hrule', hstart'⟩ :=
      hv.succeeded_iff.mp ((Memo.mem_toList.mp hy).trans (congrArg some hid'))
    obtain rfl : n = n' := Option.some.inj (hn.symm.trans hn')
    have hkey : x.1 = y.1 := by
      rw [show x.1 = ⟨x.1.position, x.1.rule⟩ from rfl, ← hstart, ← hrule, hstart', hrule']
    exact hne (by rw [hkey]; exact Std.ReflCmp.compare_self)
  rw [Memo.successes_eq]
  apply Nat.le_antisymm
  · have hle := List.nodup_range.length_le_of_subset fun id hid =>
      hmem.mpr (List.mem_range.mp hid)
    rwa [List.length_range] at hle
  · have hle := hnodup.length_le_of_subset fun id hid => List.mem_range.mpr (hmem.mp hid)
    rwa [List.length_range] at hle

end Counting

section Course
variable {s : Session}

/-- Calls, and branches extracted from their run by extractors begun and left at will. -/
inductive Extraction.Course (s : Session) : Extraction → Extraction → Prop
  | none (e) : Course s e e
  | evaluate {e e' rule input result run} : Course s e e' →
      (s.follow rule input).run.run e'.run = (result, run) → Course s e { run }
  | derive {e e' rule p result run} : Course s e e' →
      (s.derive rule p).run.run e'.run = (result, run) → Course s e { run }
  | branch {e e' rule start stop result e''} : Course s e e' →
      (s.branch rule start stop).run.run e' = (result, e'') → Course s e e''
  | renew {e e'} : Course s e e' → Course s e { run := e'.run }

theorem Extraction.Course.calls {e e' : Extraction} (h : e.Course s e') :
    s.Calls e.run e'.run := by
  induction h with
  | none => exact .none _
  | evaluate _ hrun ih => exact ih.follow hrun
  | derive _ hrun ih => exact ih.derive hrun
  | branch _ hrun ih => exact ih.trans ((Session.branch_calls _ _ _ _).of_run hrun)
  | renew _ ih => exact ih

/-- The order that holds in a run between calls. -/
structure Run.Orderly (s : Session) (run : Run) : Prop where
  frames : run.frames = []
  resolved : ∀ p rule finding, run.memo.find? p rule = some finding →
    (∃ id, finding = .succeeded id) ∨ ∃ f, finding = .failed f
  evaluations : run.stats.evaluations = run.memo.size
  maxDepth : run.stats.maxDepth ≤ s.maxDepth
  succeeded_iff : ∀ p rule id, run.memo.find? p rule = some (.succeeded id) ↔
    ∃ n, run.arena.node? id = some n ∧ n.rule = rule ∧ n.start = p
  size : run.arena.size = run.memo.successes
  output : ∀ id n, run.arena.node? id = some n → n.output ≠ ∅ ∧ ∀ q ∈ n.output, n.start ≤ q
  /-- Parents and children agree, and children come before their parents. -/
  linked : run.arena.Linked []
  parent_unique : ∀ id parent parent' m m', run.arena.node? parent = some m →
    run.arena.node? parent' = some m' → id ∈ m.children → id ∈ m'.children → parent = parent'
  ancestors : ∀ id, run.arena.ancestors id =
    match (run.arena.node? id).bind (·.parent) with
    | some parent => parent :: run.arena.ancestors parent
    | none => []
  increasing : ∀ id, (id :: run.arena.ancestors id).Pairwise (· < ·)

theorem Run.Resting.inOrder {run : Run} (h : run.Resting s) : run.Orderly s := by
  have hlinked : run.arena.Linked [] := by
    have hlinked := h.tidy.linked
    rwa [Run.waiting, h.frames] at hlinked
  refine ⟨h.frames, fun p rule finding hm => ?_, h.tidy.counted, h.tidy.maxDepth,
    fun _ _ _ => h.valid.succeeded_iff, h.valid.size_eq_successes, fun id n hn => ?_, hlinked,
    fun _ _ _ _ _ => hlinked.parent_unique, hlinked.ancestors_eq, hlinked.ancestors_increasing⟩
  · cases finding with
    | inProgress => exact absurd hm (h.settled p rule)
    | succeeded id => exact .inl ⟨id, rfl⟩
    | failed f => exact .inr ⟨f, rfl⟩
  · have hm := h.valid.succeeded_iff.mpr ⟨n, hn, rfl, rfl⟩
    have hd : run.arena.derived? id = some (n.rule, n.start, n.output) := by
      rw [Arena.derived?, hn]
      rfl
    obtain ⟨out, hd', hne⟩ := h.valid.settled _ _ _ hm
    obtain rfl : out = n.output := by
      cases hd.symm.trans hd'
      rfl
    refine ⟨hne, fun q hq => ?_⟩
    rw [← Arena.output_of_derived hd] at hq
    exact (h.valid.settled_upto _ (h.valid.known hm hq)).le

/-- After any calls and extractions, and whatever came of them, a run is in order. What it has
resolved stays so through all later ones: the finding, and the rule, start, output and children of
its node. Deriving it again gives what it gave before, counts a memo hit and does nothing else. -/
theorem Extraction.Course.orderly {e e' : Extraction} (h : Course s { run := {} } e)
    (h' : e.Course s e') :
    e.run.Orderly s ∧
    (∀ p rule finding, e.run.memo.find? p rule = some finding →
      e'.run.memo.find? p rule = some finding ∧
      (s.derive rule p).run.run e'.run = (finding.answer rule p, e'.run.countMemoHit)) ∧
    (∀ id n, e.run.arena.node? id = some n →
      ∃ parent, e'.run.arena.node? id = some { n with parent }) ∧
    ∀ rule p result run, (s.derive rule p).run.run e.run = (result, run) →
      ∀ finding, run.memo.find? p rule = some finding → result = finding.answer rule p := by
  obtain ⟨-, hrest⟩ := h.calls.leaves (Run.resting_fresh s)
  obtain ⟨hleaves, hrest'⟩ := h'.calls.leaves hrest
  refine ⟨hrest.inOrder, fun p rule finding hm => ?_, hleaves.nodes, ?_⟩
  · have hm' := hleaves.memo p rule finding hm
    exact ⟨hm', Session.derive_again hm' fun heq => hrest.settled p rule (heq ▸ hm)⟩
  · exact fun rule p result run hrun => (Session.derive_recorded rule p e.run).of_run hrun

/-- A list that was derived and whose branch was then extracted, derived once more. -/
theorem Extraction.Course.orderly_lists : ∃ run result e,
    ((Samples.listSession "a,a").derive 0 .start).run.run {} = (.ok 2, run) ∧
      run.Orderly (Samples.listSession "a,a") ∧
      ((Samples.listSession "a,a").branch 0 .start ⟨3, 1, 4⟩).run.run { run } = (result, e) ∧
      ((Samples.listSession "a,a").derive 0 .start).run.run e.run =
        (.ok 2, e.run.countMemoHit) := by
  have hroot : (((Samples.listSession "a,a").derive 0 .start).run.run {}).1 = .ok 2 :=
    ok_of_toOption (by decide +kernel)
  have hm : (((Samples.listSession "a,a").derive 0 .start).run.run {}).2.memo.find? .start 0 =
      some (.succeeded 2) := by decide +kernel
  generalize hderive : ((Samples.listSession "a,a").derive 0 .start).run.run {} = derived
    at hroot hm
  obtain ⟨root, run⟩ := derived
  obtain rfl : root = .ok 2 := hroot
  rcases hbranch : ((Samples.listSession "a,a").branch 0 .start ⟨3, 1, 4⟩).run.run { run }
    with ⟨result, e⟩
  have horderly := Extraction.Course.orderly (.derive (.none { run := {} }) hderive)
    (.branch (.none _) hbranch)
  exact ⟨run, result, e, rfl, horderly.1, hbranch, (horderly.2.1 .start 0 _ hm).2⟩

end Course
end Multipath
