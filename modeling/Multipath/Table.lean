/-!
Finite tables from keys to values: an association list with one entry per key, in which a new
key is put in front and an old key keeps its place. `get?_insert` is the law of writing.
-/

namespace Multipath

structure Table (κ : Type) (α : Type) where
  entries : List (κ × α)

namespace Table

variable {κ α : Type}

def empty : Table κ α := ⟨[]⟩

instance : Inhabited (Table κ α) := ⟨empty⟩

section Keys
variable [DecidableEq κ]

def get? (t : Table κ α) (k : κ) : Option α := (t.entries.find? fun e => e.1 = k).map Prod.snd

def contains (t : Table κ α) (k : κ) : Bool := (t.get? k).isSome

private def replace (k : κ) (v : α) : List (κ × α) → List (κ × α)
  | [] => []
  | e :: es => if e.1 = k then (k, v) :: es else e :: replace k v es

def insert (t : Table κ α) (k : κ) (v : α) : Table κ α :=
  if t.contains k then ⟨replace k v t.entries⟩ else ⟨(k, v) :: t.entries⟩

private theorem find?_replace {k j : κ} {v : α} : ∀ es : List (κ × α),
    (es.find? fun e => e.1 = k).isSome →
    ((replace k v es).find? fun e => e.1 = j).map Prod.snd =
      if j = k then some v else (es.find? fun e => e.1 = j).map Prod.snd
  | [], h => by simp at h
  | e :: es, h => by
    unfold replace
    by_cases hk : e.1 = k
    · by_cases hj : j = k
      · subst hj; simp [hk]
      · simp [hk, hj, Ne.symm hj]
    · have h' : (es.find? fun e => e.1 = k).isSome := by simpa [hk] using h
      have ih := find?_replace (j := j) (v := v) es h'
      by_cases hj : e.1 = j
      · have : ¬j = k := fun e' => hk (hj.trans e')
        simp [hj, this]
      · simpa [hk, hj] using ih

@[simp] theorem get?_empty (k : κ) : (empty : Table κ α).get? k = none := rfl

theorem get?_insert (t : Table κ α) (k j : κ) (v : α) :
    (t.insert k v).get? j = if j = k then some v else t.get? j := by
  unfold insert
  split
  · exact find?_replace t.entries (by simpa [contains, get?] using ‹t.contains k = true›)
  · by_cases h : j = k
    · subst h; simp [get?]
    · simp [get?, h, Ne.symm h]

@[simp] theorem get?_insert_self (t : Table κ α) (k : κ) (v : α) :
    (t.insert k v).get? k = some v := by simp [get?_insert]

end Keys
end Table
end Multipath
