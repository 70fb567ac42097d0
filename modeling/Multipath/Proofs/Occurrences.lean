import Multipath.Parse
import Multipath.Proofs.Extractions
import Multipath.Proofs.Lookahead
import Multipath.Proofs.Rereading

/-!
Where positions occur, and computations that make up none. A position occurs in a thing if it is
anywhere in it: in spans, errors and path sets, in what a lexer remembers, in the findings and nodes
of a run, in trees (`Positioned.occurs`). A text hosts a thing if only places of the text occur in
it. Started from a state that the text hosts, a computation of the kind looked at here leaves one,
whatever comes of it (`Source.Gives`); reading tokens is of that kind, and so is noting, entering,
leaving and recording.
-/

namespace Multipath

/-- Things in which positions occur. -/
class Positioned (α : Type) where
  occurs : Position → α → Prop

open Positioned (occurs)

namespace Positioned

instance : Positioned Nat := ⟨fun _ _ => False⟩

instance : Positioned Position := ⟨(· = ·)⟩

instance : Positioned Span := ⟨fun p s => p = s.start ∨ p = s.stop⟩

instance : Positioned Token := ⟨fun p t => occurs p t.span⟩

instance : Positioned LexicalError := ⟨fun p e => p = e.position⟩

instance : Positioned Failure := ⟨fun p f => p = f.position⟩

instance : Positioned ParseError := ⟨fun p e => e.position? = some p⟩

instance : Positioned PathSet := ⟨fun p s => p ∈ s⟩

instance {α : Type} [Positioned α] : Positioned (Option α) :=
  ⟨fun p o => ∃ a, o = some a ∧ occurs p a⟩

instance {α : Type} [Positioned α] : Positioned (List α) := ⟨fun p as => ∃ a ∈ as, occurs p a⟩

instance {α β : Type} [Positioned α] [Positioned β] : Positioned (α × β) :=
  ⟨fun p x => occurs p x.1 ∨ occurs p x.2⟩

instance {ε α : Type} [Positioned ε] [Positioned α] : Positioned (Except ε α) where
  occurs p
    | .ok a => occurs p a
    | .error e => occurs p e

instance : Positioned Lexer where
  occurs p l := p = l.position ∨
    ∃ (i : Nat) (result : Except LexicalError Token), l.cache[i]? = some result ∧ occurs p result

instance : Positioned Finding where
  occurs p
    | .failed failure => occurs p failure
    | _ => False

instance : Positioned Memo where
  occurs p m := ∃ q rule finding, m.find? q rule = some finding ∧ (p = q ∨ occurs p finding)

instance : Positioned Arena where
  occurs p a := ∃ id node, a.node? id = some node ∧ (p = node.start ∨ p ∈ node.output)

instance : Positioned Run where
  occurs p run := occurs p run.lexer ∨ occurs p run.memo ∨ occurs p run.arena ∨
    occurs p run.furthest

end Positioned

mutual

/-- The spans of a tree and of all that is in it. -/
def Tree.spans : Tree → List Span
  | .leaf l => [l.span]
  | .branch _ span children => span :: Tree.spansAll children

def Tree.spansAll : List Tree → List Span
  | [] => []
  | t :: ts => t.spans ++ Tree.spansAll ts

end

namespace Positioned

instance : Positioned Tree := ⟨fun p t => occurs p t.spans⟩

instance : Positioned Branch := ⟨fun p b => occurs p b.tree⟩

instance : Positioned Stretch := ⟨fun p s => p = s.start ∨ p = s.stop⟩

instance : Positioned Extraction where
  occurs p e := occurs p e.run ∨ (∃ stretch ∈ e.active, occurs p stretch) ∨
    ∃ (stretch : Stretch) (b : Branch), e.built[stretch]? = some b ∧ (occurs p stretch ∨ occurs p b)

instance : Positioned Parse := ⟨fun p parse => occurs p parse.tree ∨ occurs p parse.nodes⟩

end Positioned

/-- All positions that occur are places of the text. -/
def Source.Hosts (src : Source) {α : Type} [Positioned α] (a : α) : Prop :=
  ∀ p, occurs p a → src.IsPlace p

namespace Source

variable {src : Source} {α β ε : Type} [Positioned α] [Positioned β] [Positioned ε]

@[simp] theorem hosts_nat (n : Nat) : src.Hosts n := nofun

@[simp] theorem hosts_position {p : Position} : src.Hosts p ↔ src.IsPlace p :=
  ⟨fun h => h p rfl, fun h _ hp => hp ▸ h⟩

@[simp] theorem hosts_span {s : Span} : src.Hosts s ↔ src.IsPlace s.start ∧ src.IsPlace s.stop := by
  simp [Hosts, occurs, or_imp, forall_and]

@[simp] theorem hosts_token {t : Token} : src.Hosts t ↔ src.Hosts t.span := Iff.rfl

@[simp] theorem hosts_lexicalError {e : LexicalError} : src.Hosts e ↔ src.IsPlace e.position :=
  hosts_position

@[simp] theorem hosts_failure {f : Failure} : src.Hosts f ↔ src.IsPlace f.position := hosts_position

theorem hosts_parseError {e : ParseError} :
    src.Hosts e ↔ ∀ p, e.position? = some p → src.IsPlace p := Iff.rfl

theorem hosts_pathSet {s : PathSet} : src.Hosts s ↔ ∀ p ∈ s, src.IsPlace p := Iff.rfl

@[simp] theorem hosts_none : src.Hosts (none : Option α) := by simp [Hosts, occurs]

@[simp] theorem hosts_some {a : α} : src.Hosts (some a) ↔ src.Hosts a := by simp [Hosts, occurs]

@[simp] theorem hosts_nil : src.Hosts ([] : List α) := by simp [Hosts, occurs]

theorem hosts_list {as : List α} : src.Hosts as ↔ ∀ a ∈ as, src.Hosts a :=
  ⟨fun h a ha p hp => h p ⟨a, ha, hp⟩, fun h p ⟨a, ha, hp⟩ => h a ha p hp⟩

@[simp] theorem hosts_cons {a : α} {as : List α} :
    src.Hosts (a :: as) ↔ src.Hosts a ∧ src.Hosts as := by
  simp [hosts_list]

@[simp] theorem hosts_append {as bs : List α} :
    src.Hosts (as ++ bs) ↔ src.Hosts as ∧ src.Hosts bs := by
  simp [hosts_list, or_imp, forall_and]

@[simp] theorem hosts_prod {x : α × β} : src.Hosts x ↔ src.Hosts x.1 ∧ src.Hosts x.2 := by
  simp [Hosts, occurs, or_imp, forall_and]

@[simp] theorem hosts_ok {a : α} : src.Hosts (.ok a : Except ε α) ↔ src.Hosts a := Iff.rfl

@[simp] theorem hosts_error {e : ε} : src.Hosts (.error e : Except ε α) ↔ src.Hosts e := Iff.rfl

theorem hosts_lexer {l : Lexer} : src.Hosts l ↔ src.IsPlace l.position ∧
    ∀ (i : Nat) (result : Except LexicalError Token),
      l.cache[i]? = some result → src.Hosts result := by
  refine ⟨fun h => ⟨h _ (.inl rfl), fun i result hi p hp => h p (.inr ⟨i, result, hi, hp⟩)⟩, ?_⟩
  intro h p hp
  obtain rfl | ⟨i, result, hi, hp⟩ := hp
  · exact h.1
  · exact h.2 i result hi p hp

theorem hosts_memo {m : Memo} : src.Hosts m ↔ ∀ q rule finding,
    m.find? q rule = some finding → src.IsPlace q ∧ src.Hosts finding := by
  refine ⟨fun h q rule finding hfound => ⟨h q ⟨q, rule, finding, hfound, .inl rfl⟩,
    fun p hp => h p ⟨q, rule, finding, hfound, .inr hp⟩⟩, ?_⟩
  intro h p hp
  obtain ⟨q, rule, finding, hfound, rfl | hp⟩ := hp
  · exact (h p rule finding hfound).1
  · exact (h q rule finding hfound).2 p hp

theorem hosts_arena {a : Arena} : src.Hosts a ↔ ∀ id rule start output,
    a.derived? id = some (rule, start, output) → src.IsPlace start ∧ src.Hosts output := by
  constructor
  · intro h id rule start output hd
    obtain ⟨node, hnode, heq⟩ := Option.map_eq_some_iff.mp hd
    cases heq
    exact ⟨h _ ⟨id, node, hnode, .inl rfl⟩, fun p hp => h p ⟨id, node, hnode, .inr hp⟩⟩
  · intro h p hp
    obtain ⟨id, node, hnode, hp⟩ := hp
    obtain ⟨hstart, houtput⟩ :=
      h id node.rule node.start node.output (by rw [Arena.derived?, hnode]; rfl)
    obtain rfl | hp := hp
    · exact hstart
    · exact houtput p hp

@[simp] theorem hosts_run {run : Run} : src.Hosts run ↔ src.Hosts run.lexer ∧ src.Hosts run.memo ∧
    src.Hosts run.arena ∧ src.Hosts run.furthest := by
  simp only [Hosts, occurs, or_imp, forall_and]

theorem hosts_extraction {e : Extraction} : src.Hosts e ↔ src.Hosts e.run ∧
    (∀ stretch ∈ e.active, src.Hosts stretch) ∧ ∀ (stretch : Stretch) (b : Branch),
      e.built[stretch]? = some b → src.Hosts stretch ∧ src.Hosts b := by
  constructor
  · intro h
    refine ⟨fun p hp => h p (.inl hp), fun stretch hs p hp => h p (.inr (.inl ⟨stretch, hs, hp⟩)),
      fun stretch b hb => ⟨fun p hp => ?_, fun p hp => ?_⟩⟩
    · exact h p (.inr (.inr ⟨stretch, b, hb, .inl hp⟩))
    · exact h p (.inr (.inr ⟨stretch, b, hb, .inr hp⟩))
  · intro h p hp
    obtain hp | ⟨stretch, hs, hp⟩ | ⟨stretch, b, hb, hp | hp⟩ := hp
    · exact h.1 p hp
    · exact h.2.1 stretch hs p hp
    · exact (h.2.2 stretch b hb).1 p hp
    · exact (h.2.2 stretch b hb).2 p hp

@[simp] theorem hosts_stretch {stretch : Stretch} : src.Hosts stretch ↔
    src.IsPlace stretch.start ∧ src.IsPlace stretch.stop := by
  simp [Hosts, occurs, or_imp, forall_and]

@[simp] theorem hosts_leaf {l : Leaf} : src.Hosts (Tree.leaf l) ↔ src.Hosts l.span := by
  change src.Hosts [l.span] ↔ _
  simp

@[simp] theorem hosts_tree {b : Branch} : src.Hosts b.tree ↔ src.Hosts b := Iff.rfl

theorem hosts_branch {rule : String} {span : Span} {children : List Tree} :
    src.Hosts (Branch.mk rule span children) ↔ src.Hosts span ∧ src.Hosts children := by
  have hchildren : src.Hosts (Tree.spansAll children) ↔ src.Hosts children := by
    induction children with
    | nil => simp [Tree.spansAll]
    | cons t ts ih =>
        rw [Tree.spansAll, hosts_append, hosts_cons, ih]
        rfl
  change src.Hosts (span :: Tree.spansAll children) ↔ _
  rw [hosts_cons, hchildren]

theorem hosts_parsed {parse : Parse} :
    src.Hosts parse ↔ src.Hosts parse.tree ∧ src.Hosts parse.nodes := by
  simp only [Hosts, occurs, or_imp, forall_and]

section Sets

variable {p : Position} {input : PathSet}

theorem hosts_empty : src.Hosts (∅ : PathSet) :=
  fun _ hp => absurd hp Std.ExtTreeSet.not_mem_empty

theorem hosts_singleton : src.Hosts ({p} : PathSet) ↔ src.IsPlace p := by
  simp [Source.hosts_pathSet]

theorem hosts_insert : src.Hosts (input.insert p) ↔
    src.IsPlace p ∧ src.Hosts input := by
  simp [Source.hosts_pathSet, or_imp, forall_and]

theorem hosts_union {paths paths' : PathSet} : src.Hosts (paths ∪ paths') ↔
    src.Hosts paths ∧ src.Hosts paths' := by
  simp [Source.hosts_pathSet, or_imp, forall_and]

theorem hosts_of_subset {paths paths' : PathSet} (h : src.Hosts paths)
    (hsub : ∀ p ∈ paths', p ∈ paths) : src.Hosts paths' := fun p hp => h p (hsub p hp)

end Sets

section Reading

theorem IsPlace.max {p q : Position} (hp : src.IsPlace p) (hq : src.IsPlace q) :
    src.IsPlace (max p q) := by
  change src.IsPlace (if p ≤ q then q else p)
  split
  · exact hq
  · exact hp

theorem isPlace_end (src : Source) : src.IsPlace (Position.start.advanceAll src.input) :=
  ⟨src.input, List.prefix_rfl, rfl⟩

/-- What is read at a place, be it an error, has its positions in the text. -/
theorem hosts_token_of_isPlace {p : Position} (hp : src.IsPlace p) : src.Hosts (src.token p) := by
  fun_induction src.token p with
  | case1 p m hm visible _ ih => exact ih (hp.of_scan hm)
  | case2 p m hm visible _ => simpa using ⟨hp, hp.of_scan hm⟩
  | case3 p hm _ => simpa [LexicalError.position, hp.advanceAll_rest] using src.isPlace_end
  | case4 p hm _ => simpa [LexicalError.position] using hp

variable {l : Lexer}

theorem hosts_restore (hl : src.Hosts l) {p : Position} (hp : src.IsPlace p) :
    src.Hosts (l.restore p) := by
  rw [hosts_lexer] at hl ⊢
  exact ⟨hp, hl.2⟩

theorem hosts_lookup (hl : src.Hosts l) : src.Hosts (l.lookup src) := by
  have hlexer := hosts_lexer.mp hl
  rw [Lexer.lookup]
  split
  · next result hresult => exact hosts_prod.mpr ⟨hlexer.2 _ _ hresult, hl⟩
  · have hread := hosts_token_of_isPlace hlexer.1
    refine hosts_prod.mpr ⟨hread, hosts_lexer.mpr ⟨hlexer.1, fun i result hi => ?_⟩⟩
    rw [Std.TreeMap.getElem?_insert] at hi
    split at hi
    · exact Option.some.inj hi ▸ hread
    · exact hlexer.2 i result hi

theorem hosts_next (hl : src.Hosts l) : src.Hosts (l.next src) := by
  have hlookup := hosts_lookup hl
  rw [Lexer.next]
  split
  · next t l' heq =>
      rw [heq] at hlookup
      simp only [hosts_prod, hosts_ok, hosts_token, hosts_span] at hlookup ⊢
      exact ⟨hlookup.1, hosts_restore hlookup.2 hlookup.1.2⟩
  · next heq => exact heq ▸ hlookup

theorem hosts_collect (n : Nat) (hl : src.Hosts l) : src.Hosts (l.collect src n) := by
  induction n generalizing l with
  | zero => simpa [Lexer.collect] using hl
  | succ n ih =>
      have hnext := hosts_next hl
      rw [Lexer.collect]
      split
      · next t l' heq =>
          rw [heq, hosts_prod] at hnext
          have hrest := ih hnext.2
          generalize l'.collect src n = collected at hrest ⊢
          obtain ⟨_ | ts, l''⟩ := collected
          · exact hrest
          · have hrest := hosts_prod.mp hrest
            exact hosts_prod.mpr ⟨hosts_cons.mpr ⟨hnext.1, hrest.1⟩, hrest.2⟩
      · next e l' heq =>
          rw [heq, hosts_prod] at hnext
          refine hosts_prod.mpr ⟨?_, hnext.2⟩
          dsimp only
          split
          · exact hosts_ok.mpr hosts_nil
          · exact hnext.1

end Reading

section Recording

theorem hosts_fresh : src.Hosts ({} : Run) := by
  refine hosts_run.mpr ⟨hosts_lexer.mpr ⟨src.isPlace_start, fun i result h => ?_⟩,
    hosts_memo.mpr fun q rule finding h => ?_, hosts_arena.mpr fun id rule start output h => ?_,
    hosts_none⟩
  · simp at h
  · simp [Memo.find?] at h
  · simp [Arena.derived?, Arena.node?] at h

theorem hosts_renew {run : Run} (h : src.Hosts run) : src.Hosts ({ run } : Extraction) :=
  hosts_extraction.mpr ⟨h, fun _ hs => absurd hs (by simp), fun _ _ hb => by simp at hb⟩

variable {run : Run} {p : Position} {rule : RuleId}

theorem hosts_record {m : Memo} (hm : src.Hosts m) (hp : src.IsPlace p) {finding : Finding}
    (hfinding : src.Hosts finding) : src.Hosts (m.record p rule finding) := by
  rw [hosts_memo] at hm ⊢
  intro q rule' finding' hfound
  rw [Memo.find?_record] at hfound
  split at hfound
  · next heq =>
      cases hfound
      exact ⟨heq.1 ▸ hp, hfinding⟩
  · exact hm q rule' finding' hfound

/-- Where a failure is reported, the furthest failure so far being noted. -/
theorem isPlace_furthest {furthest : Option Position} (h : src.Hosts furthest)
    (hp : src.IsPlace p) : src.IsPlace ((furthest.map fun q => max q p).getD p) := by
  cases furthest with
  | none => exact hp
  | some q =>
      rw [hosts_some, hosts_position] at h
      exact h.max hp

theorem hosts_noteFailure (hrun : src.Hosts run) (hp : src.IsPlace p) :
    src.Hosts (run.noteFailure p) := by
  rw [hosts_run] at hrun ⊢
  exact ⟨hrun.1, hrun.2.1, hrun.2.2.1,
    hosts_some.mpr (hosts_position.mpr (isPlace_furthest hrun.2.2.2 hp))⟩

theorem hosts_enter (hrun : src.Hosts run) (hp : src.IsPlace p) :
    src.Hosts (run.enter rule p) := by
  rw [hosts_run] at hrun ⊢
  exact ⟨hrun.1, hosts_record hrun.2.1 hp nofun, hrun.2.2⟩

theorem hosts_fail (hrun : src.Hosts run) (hp : src.IsPlace p) {failure : Failure}
    (hfailure : src.Hosts failure) : src.Hosts (run.fail rule p failure) := by
  rw [hosts_run] at hrun ⊢
  exact ⟨hrun.1, hosts_record hrun.2.1 hp hfailure, hrun.2.2⟩

theorem hosts_alloc {a : Arena} (ha : src.Hosts a) {node : Node} (hstart : src.IsPlace node.start)
    (houtput : src.Hosts node.output) : src.Hosts (a.alloc node).2 := by
  rw [hosts_arena] at ha ⊢
  intro id rule start output hd
  rw [Arena.derived?_alloc] at hd
  split at hd
  · cases hd
    exact ⟨hstart, houtput⟩
  · exact ha id rule start output hd

theorem hosts_succeed (hrun : src.Hosts run) (hp : src.IsPlace p) {output : PathSet}
    (houtput : src.Hosts output) : src.Hosts (run.succeed rule p output).2 := by
  rw [hosts_run] at hrun ⊢
  exact ⟨hrun.1, hosts_record hrun.2.1 hp nofun, hosts_alloc hrun.2.2.1 hp houtput, hrun.2.2.2⟩

theorem hosts_output {a : Arena} (ha : src.Hosts a) (id : NodeId) : src.Hosts (a.output id) := by
  rw [Arena.output_eq]
  cases hd : a.derived? id with
  | none => exact fun q hq => absurd hq Std.ExtTreeSet.not_mem_empty
  | some x => exact (hosts_arena.mp ha id x.1 x.2.1 x.2.2 hd).2

/-- Narrowing a node to a place brings in no other position. -/
theorem hosts_setOutput (hrun : src.Hosts run) (id : NodeId) {output : PathSet}
    (houtput : src.Hosts output) : src.Hosts (run.setOutput id output) := by
  rw [hosts_run] at hrun ⊢
  refine ⟨hrun.1, hrun.2.1, hosts_arena.mpr fun other rule start output' hd => ?_, hrun.2.2.2⟩
  have harena := hosts_arena.mp hrun.2.2.1
  rw [Run.setOutput, Arena.derived?_setOutput] at hd
  split at hd
  · obtain ⟨x, hx, heq⟩ := Option.map_eq_some_iff.mp hd
    cases heq
    exact ⟨(harena other x.1 x.2.1 x.2.2 hx).1, houtput⟩
  · exact harena other rule start output' hd

end Recording

section Computations

variable {σ γ δ : Type} [Positioned σ]

/-- What may come of a computation: something of that kind, or a failure at a place. -/
def Settles (src : Source) (post : γ → Prop) : Except Failure γ → Prop
  | .ok a => post a
  | .error failure => src.IsPlace failure.position

/-- From a state that the text hosts, whatever comes of it, the computation leaves one, and gives
something of that kind unless it fails. -/
def Gives (src : Source) (x : ExceptT Failure (StateM σ) γ) (post : γ → Prop) : Prop :=
  ∀ st, src.Hosts st → Ensures x st fun result st' => src.Hosts st' ∧ src.Settles post result

namespace Gives

variable {x : ExceptT Failure (StateM σ) γ} {post : γ → Prop}

theorem pure {a : γ} (h : post a) : src.Gives (Pure.pure a : ExceptT Failure (StateM σ) γ) post :=
  fun _ hst => ensures_pure.mpr ⟨hst, h⟩

theorem throw {failure : Failure} (h : src.IsPlace failure.position) :
    src.Gives (MonadExcept.throw failure : ExceptT Failure (StateM σ) γ) post :=
  fun _ hst => ensures_throw.mpr ⟨hst, h⟩

theorem get : src.Gives (MonadState.get : ExceptT Failure (StateM σ) σ) src.Hosts :=
  fun _ hst => ensures_get.mpr ⟨hst, hst⟩

theorem modify {f : σ → σ} (h : ∀ st, src.Hosts st → src.Hosts (f st)) :
    src.Gives (modify f : ExceptT Failure (StateM σ) Unit) fun _ => True :=
  fun st hst => ensures_modify.mpr ⟨h st hst, trivial⟩

theorem modifyGet {f : σ → γ × σ} (h : ∀ st, src.Hosts st → post (f st).1 ∧ src.Hosts (f st).2) :
    src.Gives (modifyGet f : ExceptT Failure (StateM σ) γ) post :=
  fun st hst => ensures_modifyGet.mpr (h st hst).symm

theorem bind {f : γ → ExceptT Failure (StateM σ) δ} {post' : δ → Prop} (hx : src.Gives x post)
    (hf : ∀ a, post a → src.Gives (f a) post') : src.Gives (x >>= f) post' := by
  intro st hst
  refine ensures_bind.mpr ((hx st hst).mono fun result st' h => ?_)
  cases result with
  | error failure => exact h
  | ok a => exact hf a h.2 st' h.1

theorem foldlM {ι : Type} {f : γ → ι → ExceptT Failure (StateM σ) γ} {is : List ι} {a : γ}
    (ha : post a) (hf : ∀ a, ∀ i ∈ is, post a → src.Gives (f a i) post) :
    src.Gives (is.foldlM f a) post := by
  induction is generalizing a with
  | nil => exact .pure ha
  | cons i is ih =>
      rw [List.foldlM_cons]
      exact (hf a i List.mem_cons_self ha).bind fun a ha => ih ha fun a i hi =>
        hf a i (List.mem_cons_of_mem _ hi)

/-- Going on with a result, failures included. -/
theorem outcome (hx : src.Gives x post) : src.Gives (ExceptT.lift x.run) (src.Settles post) := hx

theorem attempt {x : Search γ} (hx : src.Gives x post) :
    src.Gives (Search.attempt x) (src.Settles post) := by
  refine fun run hrun => Search.ensures_attempt.mpr ((hx run hrun).mono fun result run' h => ?_)
  cases result with
  | ok a => exact h
  | error failure =>
      dsimp only
      split <;> exact h

theorem ofSearch {x : Search γ} (hx : src.Gives x post) : src.Gives (Extract.ofSearch x) post := by
  intro e he
  have he := hosts_extraction.mp he
  exact ensures_ofSearch.mpr ((hx e.run he.1).mono fun result run' h =>
    ⟨hosts_extraction.mpr ⟨h.1, he.2⟩, h.2⟩)

/-- The text hosts what comes of such a computation and what is left by it. -/
theorem hosts_outcome [Positioned γ] (hx : src.Gives x post) (himp : ∀ a, post a → src.Hosts a)
    {st : σ} (hst : src.Hosts st) :
    src.Hosts (x.run.run st).1 ∧ src.Hosts (x.run.run st).2 := by
  obtain ⟨hstate, hresult⟩ := hx st hst
  refine ⟨?_, hstate⟩
  cases hrun : (x.run.run st).1 with
  | error failure =>
      rw [hrun] at hresult
      exact hosts_failure.mpr hresult
  | ok a =>
      rw [hrun] at hresult
      exact himp a hresult

end Gives

end Computations

end Source
end Multipath
