import Multipath.Proofs.Selection
import Multipath.Proofs.Standing

/-!
How much there can be to do. From a start there are as many positions on the chain of tokens as
there are tokens, and one more. A run that keeps to the chain has findings about rules of its
grammar there and about nothing else, and it evaluates a rule once for each finding. So its
evaluations are at most as many as rules times positions, whatever is asked of it
(`Run.Resting.evaluations_le`).
-/

namespace Multipath

namespace Source

variable {src : Source} {p q start : Position}

/-- The tokens that are read one after the other from a position on, until none can be read. -/
def tokensFrom (src : Source) (p : Position) : List Token :=
  match _h : src.token p with
  | .ok t => t :: src.tokensFrom t.span.stop
  | .error _ => []
termination_by src.length - p.index
decreasing_by have := token_stop _h; omega

/-- The position and all those behind it on the chain of tokens. -/
def positionsFrom (src : Source) (p : Position) : List Position :=
  p :: (src.tokensFrom p).map (·.span.stop)

theorem tokensFrom_of_token {t : Token} (h : src.token p = .ok t) :
    src.tokensFrom p = t :: src.tokensFrom t.span.stop := by
  rw [tokensFrom]
  split
  · next t' h' =>
      cases h.symm.trans h'
      rfl
  · next h' => cases h.symm.trans h'

theorem length_positionsFrom (src : Source) (p : Position) :
    (src.positionsFrom p).length = (src.tokensFrom p).length + 1 := by
  simp [positionsFrom]

/-- Every token takes up some of the text. -/
theorem length_tokensFrom_le (src : Source) (p : Position) :
    (src.tokensFrom p).length ≤ src.length - p.index := by
  fun_induction src.tokensFrom p with
  | case1 p t h ih =>
      have := token_stop h
      rw [List.length_cons]
      omega
  | case2 p e h => exact Nat.zero_le _

theorem Chain.mem_positionsFrom {ts : List Token} (h : src.Chain p ts q) :
    q ∈ src.positionsFrom p := by
  induction h with
  | nil => exact List.mem_cons_self
  | cons ht _ ih =>
      rw [positionsFrom, tokensFrom_of_token ht]
      exact List.mem_cons_of_mem _ ih

theorem OnChain.mem_positionsFrom (h : src.OnChain start q) : q ∈ src.positionsFrom start := by
  obtain ⟨ts, hts⟩ := h.chain
  exact hts.mem_positionsFrom

/-- A set of positions on the chain has no more members than the chain has positions. -/
theorem size_le_of_onChain {paths : PathSet} (h : ∀ q ∈ paths, src.OnChain start q) :
    paths.size ≤ (src.positionsFrom start).length := by
  rw [← Std.ExtTreeSet.length_toList]
  apply paths.nodup_toList.length_le_of_subset
  intro q hq
  exact (h q (Std.ExtTreeSet.mem_toList.mp hq)).mem_positionsFrom

/-- A position on the chain is known by its index. -/
theorem OnChain.eq_of_index (hp : src.OnChain start p) (hq : src.OnChain start q)
    (h : p.index = q.index) : p = q := by
  obtain ⟨n, hn⟩ := hp
  obtain ⟨m, hm⟩ := hq
  by_cases hle : n ≤ m
  · obtain heq | hlt := behind_upto hn hm hle
    · exact heq
    · omega
  · obtain heq | hlt := behind_upto hm hn (by omega)
    · exact heq.symm
    · omega

end Source

namespace Lexer

variable {src : Source} {start : Position} {l : Lexer}

/-- The tokens that a lexer reads until it fails, `n` at most. -/
def drain (src : Source) : Nat → Lexer → List Token
  | 0, _ => []
  | n + 1, l =>
    match l.next src with
    | (.ok t, l) => t :: drain src n l
    | (.error _, _) => []

/-- On the chain, what a lexer remembers makes no difference to what it reads. -/
theorem next_eq_token_of_onChain (h : ReadFrom src (src.OnChain start) l)
    (hp : src.OnChain start l.position) : (l.next src).1 = src.token l.position := by
  have hn := next_spec h hp
  obtain ⟨p, hp', hi, ht⟩ := hn.readFrom _ _ hn.remembered
  rw [← ht, hp'.eq_of_index hp hi]

theorem drain_eq_tokensFrom (n : Nat) (h : ReadFrom src (src.OnChain start) l)
    (hp : src.OnChain start l.position) (hn : (src.tokensFrom l.position).length ≤ n) :
    l.drain src n = src.tokensFrom l.position := by
  induction n generalizing l with
  | zero => exact (List.eq_nil_of_length_eq_zero (Nat.le_zero.mp hn)).symm
  | succ n ih =>
      have hread := next_eq_token_of_onChain h hp
      have once := next_spec h hp
      have hfrom := once.readFrom
      have hposition := once.position
      rw [drain]
      rcases hnext : l.next src with ⟨e | t, l'⟩
      · rw [hnext] at hread
        rw [Source.tokensFrom, ← hread]
      · rw [hnext] at hread hfrom hposition
        have hpos : l'.position = t.span.stop := hposition
        rw [Source.tokensFrom_of_token hread.symm, List.length_cons] at hn
        rw [Source.tokensFrom_of_token hread.symm]
        have hrest := ih hfrom (hpos ▸ hp.next hread.symm) (by rw [hpos]; omega)
        rw [hpos] at hrest
        exact congrArg (t :: ·) hrest

end Lexer

namespace Session

variable (s : Session) (start : Position)

/-- All rules of the grammar at all positions on the chain. -/
def references : List Reference :=
  (List.range s.grammar.rules.length).flatMap fun rule =>
    (s.source.positionsFrom start).map fun p => ⟨p, rule⟩

theorem length_references : (s.references start).length =
    s.grammar.rules.length * ((s.source.tokensFrom start).length + 1) := by
  simp [references, List.length_flatMap, Source.length_positionsFrom, List.map_const']

/-- More levels than there are references, and than there are stretches to any one stop. -/
def ample : Nat := (s.references start).length * ((s.source.positionsFrom start).length + 1) + 1

theorem length_references_lt_ample : (s.references start).length < s.ample start :=
  Nat.lt_succ_of_le (Nat.le_mul_of_pos_right _ (Nat.succ_pos _))

variable {s start}

theorem mem_references {p : Position} {rule : RuleId} (hrule : s.grammar.rule? rule ≠ none)
    (hp : s.source.OnChain start p) : ⟨p, rule⟩ ∈ s.references start := by
  have hlt : rule < s.grammar.rules.length :=
    Nat.lt_of_not_le fun hle => hrule (List.getElem?_eq_none hle)
  apply List.mem_flatMap.mpr
  exact ⟨rule, List.mem_range.mpr hlt, List.mem_map.mpr ⟨p, hp.mem_positionsFrom, rfl⟩⟩

end Session

namespace Run

variable {s : Session} {start : Position} {run : Run}

/-- There is a finding for each rule at each position on the chain, at most. -/
theorem Valid.size_memo_le (hv : run.Valid s (.chain s.source start)) (hd : run.Defined s) :
    run.memo.size ≤ (s.references start).length := by
  rw [← Std.TreeMap.length_keys]
  apply Std.TreeMap.nodup_keys.length_le_of_subset
  intro r hr
  have hmem : (⟨r.position, r.rule⟩ : Reference) ∈ run.memo := Std.TreeMap.mem_keys.mp hr
  obtain ⟨finding, hm⟩ := Option.ne_none_iff_exists'.mp (Memo.mem_iff_find?.mp hmem)
  exact Session.mem_references (hd _ _ finding hm) (hv.asked _ _ finding hm)

theorem Resting.evaluations_le (h : run.Resting s) (hv : run.Valid s (.chain s.source start))
    (hd : run.Defined s) : run.stats.evaluations ≤
      s.grammar.rules.length * ((s.source.tokensFrom start).length + 1) := by
  rw [h.tidy.counted, ← s.length_references start]
  exact hv.size_memo_le hd

/-- A rule without a finding leaves room for one. -/
theorem Valid.size_memo_lt (hv : run.Valid s (.chain s.source start)) (hd : run.Defined s)
    {p : Position} {rule : RuleId} (hp : s.source.OnChain start p)
    (hrule : s.grammar.rule? rule ≠ none) (hnone : run.memo.find? p rule = none) :
    run.memo.size < (s.references start).length := by
  have hentered := run.enter_records rule p
  have hv' : (run.enter rule p).Valid s (.chain s.source start) :=
    hentered.valid hv hp (by simp [hnone]) rfl (by simp)
  have hle := hv'.size_memo_le (hd.record hentered hrule)
  rw [hentered.memo, Memo.size_record_of_none hnone] at hle
  exact hle

end Run
end Multipath
