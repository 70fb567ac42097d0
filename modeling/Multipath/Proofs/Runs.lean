import Multipath.Derivation.Evaluation
import Multipath.Proofs.Ends
import Multipath.Proofs.Ensures

/-!
What is true of a run at every moment, and how runs grow. Nothing that a run has read, found out
or derived is ever taken back (`Run.Grows`). In a valid run every settled rule has a node and no
other node there is, and every path of a node is led to by the body of its rule over nodes that were
complete before it (`Run.Valid.backed`): the nodes' order is the order in which derivations were
completed.

A scope says where a run may go: the positions tokens are read at, and among them the ones it was
given to start from.
-/

namespace Multipath

namespace Arena

/-- What a node says apart from its links: its rule, its start and its output. -/
def derived? (a : Arena) (id : NodeId) : Option (RuleId × Position × PathSet) :=
  (a.node? id).map fun n => (n.rule, n.start, n.output)

theorem output_eq (a : Arena) (id : NodeId) :
    a.output id = ((a.derived? id).map (·.2.2)).getD ∅ := by
  simp [output, derived?, Function.comp_def]

theorem output_of_derived {a : Arena} {id : NodeId} {rule : RuleId} {p : Position} {out : PathSet}
    (h : a.derived? id = some (rule, p, out)) : a.output id = out := by
  simp [output_eq, h]

theorem lt_size_of_derived {a : Arena} {id : NodeId} {x : RuleId × Position × PathSet}
    (h : a.derived? id = some x) : id < a.size := by
  obtain ⟨n, hn, -⟩ := Option.map_eq_some_iff.mp h
  exact (Array.getElem?_eq_some_iff.mp hn).1

theorem derived?_adopt (parent : NodeId) (ids : List NodeId) (nodes : Array Node) (id : NodeId) :
    (Arena.mk (ids.foldl (adopt parent) nodes)).derived? id = (Arena.mk nodes).derived? id := by
  induction ids generalizing nodes with
  | nil => rfl
  | cons child ids ih =>
      rw [List.foldl_cons, ih]
      simp only [derived?, node?, adopt, Array.getElem?_modify]
      split
      · next h => subst h; simp [Option.map_map, Function.comp_def]
      · rfl

theorem derived?_alloc (a : Arena) (n : Node) (id : NodeId) :
    (a.alloc n).2.derived? id =
      if id = a.size then some (n.rule, n.start, n.output) else a.derived? id := by
  have hsize : (n.children.foldl (adopt a.size) a.nodes).size = a.size := size_adopt _ _ _
  have hpush : (a.alloc n).2.derived? id =
      if id = a.size then some (n.rule, n.start, n.output)
      else (Arena.mk (n.children.foldl (adopt a.size) a.nodes)).derived? id := by
    simp only [alloc, derived?, node?, Array.getElem?_push, hsize]
    split <;> rfl
  rw [hpush, derived?_adopt]

theorem derived?_setOutput (a : Arena) (node : NodeId) (out : PathSet) (id : NodeId) :
    (a.setOutput node out).derived? id =
      if id = node then (a.derived? id).map fun x => (x.1, x.2.1, out) else a.derived? id := by
  simp only [setOutput, derived?, node?, Array.getElem?_modify, @eq_comm _ node]
  split
  · simp [Option.map_map, Function.comp_def]
  · rfl

/-- The paths of all nodes. -/
def paths (a : Arena) : List Position := a.nodes.toList.flatMap (·.output.toList)

theorem length_paths (a : Arena) : a.paths.length = a.pathCount := by
  rw [paths, pathCount, ← Array.foldr_toList]
  induction a.nodes.toList with
  | nil => rfl
  | cons n ns ih => simp [ih, Std.ExtTreeSet.length_toList]

theorem mem_paths {a : Arena} {id : NodeId} {q : Position} (h : q ∈ a.output id) :
    q ∈ a.paths := by
  unfold output at h
  cases hn : a.node? id with
  | none => simp [hn] at h
  | some n =>
      have hq : q ∈ n.output := by simpa [hn] using h
      have hmem : n ∈ a.nodes.toList := Array.mem_toList_iff.mpr (Array.mem_of_getElem? hn)
      exact List.mem_flatMap.mpr ⟨n, hmem, Std.ExtTreeSet.mem_toList.mpr hq⟩

end Arena

namespace Run

/-- `t` was read at the index of `p`. -/
def Reads (run : Run) (p : Position) (t : Token) : Prop :=
  run.lexer.cache[p.index]? = some (.ok t)

/-- `q` is the end of a token that was read. -/
def Stops (run : Run) (q : Position) : Prop :=
  ∃ p t, run.Reads p t ∧ t.span.stop = q

/-- One of the first `n` nodes says that the rule leads from `p` to `q`. -/
def Settled (run : Run) (n : Nat) (rule : RuleId) (p q : Position) : Prop :=
  ∃ id < n, run.memo.find? p rule = some (.succeeded id) ∧ q ∈ run.arena.output id

/-- Some node says so. -/
def Known (run : Run) : RuleId → Position → Position → Prop := run.Settled run.arena.size

/-- `run'` has everything that `run` has. -/
structure Grows (run run' : Run) : Prop where
  cache : ∀ (i : Nat) (result : Except LexicalError Token),
    run.lexer.cache[i]? = some result → run'.lexer.cache[i]? = some result
  memo : ∀ p rule finding,
    run.memo.find? p rule = some finding → run'.memo.find? p rule = some finding
  nodes : ∀ id x, run.arena.derived? id = some x → run'.arena.derived? id = some x
  hits : run.stats.leftRecursionHits ≤ run'.stats.leftRecursionHits

namespace Grows

variable {run run' run'' : Run}

theorem refl (run : Run) : run.Grows run :=
  ⟨fun _ _ h => h, fun _ _ _ h => h, fun _ _ h => h, Nat.le_refl _⟩

theorem trans (h : run.Grows run') (h' : run'.Grows run'') : run.Grows run'' where
  cache i result hc := h'.cache i result (h.cache i result hc)
  memo p rule finding hm := h'.memo p rule finding (h.memo p rule finding hm)
  nodes id x hn := h'.nodes id x (h.nodes id x hn)
  hits := Nat.le_trans h.hits h'.hits

theorem reads (h : run.Grows run') {p : Position} {t : Token} (ht : run.Reads p t) :
    run'.Reads p t := h.cache _ _ ht

theorem stops (h : run.Grows run') {q : Position} (hq : run.Stops q) : run'.Stops q := by
  obtain ⟨p, t, ht, rfl⟩ := hq
  exact ⟨p, t, h.reads ht, rfl⟩

end Grows

end Run

/-- Where a run may go. -/
structure Scope (src : Source) where
  /-- Tokens are read here only. -/
  origin : Position → Prop
  /-- The run is given these to start from. -/
  base : Position → Prop
  origin_of_base : ∀ p, base p → origin p
  origin_of_token : ∀ p t, src.token p = .ok t → origin p → origin t.span.stop

/-- No restriction: positions may disagree on lines and columns. -/
def Scope.everywhere (src : Source) : Scope src where
  origin _ := True
  base _ := True
  origin_of_base _ _ := trivial
  origin_of_token _ _ _ _ := trivial

/-- The places of the text. -/
def Scope.places (src : Source) : Scope src where
  origin := src.IsPlace
  base := src.IsPlace
  origin_of_base _ h := h
  origin_of_token _ _ ht hp := hp.of_token ht

/-- Is in reach of a run in that scope: given to it, or the end of a token it read. -/
def Run.Within {src : Source} (run : Run) (c : Scope src) (p : Position) : Prop :=
  c.base p ∨ run.Stops p

structure Run.Valid (s : Session) (c : Scope s.source) (run : Run) : Prop where
  readFrom : run.lexer.ReadFrom s.source c.origin
  asked : ∀ p rule finding, run.memo.find? p rule = some finding → c.origin p
  within : ∀ id q, q ∈ run.arena.output id → run.Within c q
  settled : ∀ p rule id, run.memo.find? p rule = some (.succeeded id) →
    ∃ out, run.arena.derived? id = some (rule, p, out) ∧ out ≠ ∅
  recorded : ∀ id rule p out, run.arena.derived? id = some (rule, p, out) →
    run.memo.find? p rule = some (.succeeded id)
  backed : ∀ id rule p out, run.arena.derived? id = some (rule, p, out) →
    ∃ definition, s.grammar.rule? rule = some definition ∧
      ∀ q ∈ out, s.grammar.Leads run.Reads (run.Settled id) definition.body p q

namespace Run

variable {s : Session} {c : Scope s.source} {run run' : Run}

theorem Grows.within (h : run.Grows run') {p : Position} (hp : run.Within c p) :
    run'.Within c p := hp.imp_right h.stops

theorem valid_empty : Run.Valid s c {} where
  readFrom := Lexer.readFrom_empty
  asked p rule finding h := by simp [Memo.find?] at h
  within id q hq := by simp [Arena.output, Arena.node?] at hq
  settled p rule id h := by simp [Memo.find?] at h
  recorded id rule p out h := by simp [Arena.derived?, Arena.node?] at h
  backed id rule p out h := by simp [Arena.derived?, Arena.node?] at h

theorem Valid.reads_index_lt (h : run.Valid s c) {p : Position} {t : Token}
    (ht : run.Reads p t) : p.index < t.span.stop.index ∧ t.span.stop.index ≤ s.source.length := by
  obtain ⟨p', -, hi, htok⟩ := h.readFrom _ _ ht
  have := Source.token_stop htok
  omega

theorem Valid.origin_of_within (h : run.Valid s c) {p : Position} (hp : run.Within c p) :
    c.origin p := by
  obtain hp | ⟨p', t, ht, rfl⟩ := hp
  · exact c.origin_of_base p hp
  · obtain ⟨p'', ho, -, htok⟩ := h.readFrom _ _ ht
    exact c.origin_of_token p'' t htok ho

theorem Valid.lt_size (h : run.Valid s c) {p : Position} {rule : RuleId} {id : NodeId}
    (hm : run.memo.find? p rule = some (.succeeded id)) : id < run.arena.size := by
  obtain ⟨out, hd, -⟩ := h.settled p rule id hm
  exact Arena.lt_size_of_derived hd

theorem Valid.known (h : run.Valid s c) {p q : Position} {rule : RuleId} {id : NodeId}
    (hm : run.memo.find? p rule = some (.succeeded id)) (hq : q ∈ run.arena.output id) :
    run.Known rule p q := ⟨id, h.lt_size hm, hm, hq⟩

theorem Grows.output (h : run.Grows run') (hv : run.Valid s c) {p : Position} {rule : RuleId}
    {id : NodeId} (hm : run.memo.find? p rule = some (.succeeded id)) :
    run'.arena.output id = run.arena.output id := by
  obtain ⟨out, hd, -⟩ := hv.settled p rule id hm
  rw [Arena.output_of_derived hd, Arena.output_of_derived (h.nodes _ _ hd)]

theorem Grows.settled (h : run.Grows run') (hv : run.Valid s c) {n : Nat} {rule : RuleId}
    {p q : Position} (hs : run.Settled n rule p q) : run'.Settled n rule p q := by
  obtain ⟨id, hid, hm, hq⟩ := hs
  refine ⟨id, hid, h.memo _ _ _ hm, ?_⟩
  rwa [h.output hv hm]

theorem Grows.known (h : run.Grows run') (hv : run.Valid s c) (hv' : run'.Valid s c)
    {rule : RuleId} {p q : Position} (hk : run.Known rule p q) : run'.Known rule p q := by
  obtain ⟨id, -, hm, hq⟩ := h.settled hv hk
  exact hv'.known hm hq

theorem Settled.known (hv : run.Valid s c) {n : Nat} {rule : RuleId} {p q : Position}
    (h : run.Settled n rule p q) : run.Known rule p q := by
  obtain ⟨id, -, hm, hq⟩ := h
  exact hv.known hm hq

/-- Where a rule leads by what a run has read and derived. -/
abbrev Leads (s : Session) (run : Run) : Rule → Position → Position → Prop :=
  s.grammar.Leads run.Reads run.Known

theorem Grows.leads (h : run.Grows run') (hv : run.Valid s c) (hv' : run'.Valid s c) {rule : Rule}
    {p q : Position} (hl : run.Leads s rule p q) : run'.Leads s rule p q :=
  hl.mono (fun _ _ => h.reads) (fun _ _ _ => h.known hv hv')

theorem Valid.leads_of_settled (hv : run.Valid s c) {n : Nat} {rule : Rule} {p q : Position}
    (h : s.grammar.Leads run.Reads (run.Settled n) rule p q) : run.Leads s rule p q :=
  h.mono (fun _ _ ht => ht) (fun _ _ _ hs => hs.known hv)

theorem Grows.leads_settled (h : run.Grows run') (hv : run.Valid s c) {n : Nat} {rule : Rule}
    {p q : Position} (hl : s.grammar.Leads run.Reads (run.Settled n) rule p q) :
    s.grammar.Leads run'.Reads (run'.Settled n) rule p q :=
  hl.mono (fun _ _ => h.reads) (fun _ _ _ => h.settled hv)

theorem Valid.known_within (hv : run.Valid s c) {rule : RuleId} {p q : Position}
    (h : run.Known rule p q) : run.Within c q := by
  obtain ⟨id, -, -, hq⟩ := h
  exact hv.within id q hq

theorem Valid.leads_within (hv : run.Valid s c) {rule : Rule} {p q : Position}
    (h : run.Leads s rule p q) (hp : run.Within c p) : run.Within c q :=
  h.carries (run.Within c) hp (fun p t ht _ => .inr ⟨p, t, ht, rfl⟩)
    (fun _ _ _ hk _ => hv.known_within hk)

/-- Nodes only lead forward: by induction on the order in which they were completed. -/
theorem Valid.settled_upto (hv : run.Valid s c) (n : Nat) {rule : RuleId} {p q : Position}
    (h : run.Settled n rule p q) : p.Upto q := by
  induction n using Nat.strongRecOn generalizing rule p q with
  | ind n ih =>
      obtain ⟨id, hid, hm, hq⟩ := h
      obtain ⟨out, hd, -⟩ := hv.settled p rule id hm
      obtain ⟨definition, -, hleads⟩ := hv.backed id rule p out hd
      rw [Arena.output_of_derived hd] at hq
      exact (hleads q hq).upto (fun _ _ ht => .inr (hv.reads_index_lt ht).1)
        (fun _ _ _ hs => ih id hid hs)

theorem Valid.leads_upto (hv : run.Valid s c) {n : Nat} {rule : Rule} {p q : Position}
    (h : s.grammar.Leads run.Reads (run.Settled n) rule p q) : p.Upto q :=
  h.upto (fun _ _ ht => .inr (hv.reads_index_lt ht).1) (fun _ _ _ => hv.settled_upto n)

end Run
end Multipath
