import Multipath.Position

/-!
Syntax trees. A branch is an instance of a rule with the tokens and branches that its rule
matched, in order; the tree of a text is its root branch.
-/

namespace Multipath

structure Leaf where
  tags : List String
  text : String
  span : Span
deriving DecidableEq, Inhabited

def Leaf.hasTag (leaf : Leaf) (tag : String) : Bool := leaf.tags.contains tag

inductive Tree where
  | leaf (token : Leaf)
  | branch (rule : String) (span : Span) (children : List Tree)
deriving Inhabited

structure Branch where
  rule : String
  span : Span
  children : List Tree

namespace Tree

def span : Tree → Span
  | .leaf l => l.span
  | .branch _ span _ => span

def leaf? : Tree → Option Leaf
  | .leaf l => some l
  | .branch .. => none

def branch? : Tree → Option Branch
  | .leaf _ => none
  | .branch rule span children => some ⟨rule, span, children⟩

mutual

/-- The tokens of a tree, in the order of the text. -/
def tokens : Tree → List Leaf
  | .leaf l => [l]
  | .branch _ _ children => tokensAll children

def tokensAll : List Tree → List Leaf
  | [] => []
  | t :: ts => tokens t ++ tokensAll ts

end

mutual

/-- The branches of a rule in a tree, outer ones first. -/
def findAll (rule : String) : Tree → List Branch
  | .leaf _ => []
  | .branch name span children =>
    if name = rule then ⟨name, span, children⟩ :: findAllIn rule children
    else findAllIn rule children

def findAllIn (rule : String) : List Tree → List Branch
  | [] => []
  | t :: ts => findAll rule t ++ findAllIn rule ts

end

mutual

def same : Tree → Tree → Bool
  | .leaf k, .leaf l => k == l
  | .branch r s ts, .branch r' s' ts' => r == r' && s == s' && sameAll ts ts'
  | _, _ => false

def sameAll : List Tree → List Tree → Bool
  | [], [] => true
  | t :: ts, t' :: ts' => same t t' && sameAll ts ts'
  | _, _ => false

end

mutual

theorem same_iff : ∀ t t' : Tree, same t t' = true ↔ t = t'
  | .leaf _, t' => by cases t' <;> simp [same]
  | .branch _ _ ts, t' => by cases t' <;> simp [same, sameAll_iff ts, and_assoc]

theorem sameAll_iff : ∀ ts ts' : List Tree, sameAll ts ts' = true ↔ ts = ts'
  | [], ts' => by cases ts' <;> simp [sameAll]
  | t :: ts, ts' => by cases ts' <;> simp [sameAll, same_iff t, sameAll_iff ts]

end

instance : DecidableEq Tree := fun t t' => decidable_of_iff _ (same_iff t t')

end Tree

deriving instance DecidableEq for Branch

namespace Branch

def tree (b : Branch) : Tree := .branch b.rule b.span b.children

def branches (b : Branch) : List Branch := b.children.filterMap Tree.branch?

def leaves (b : Branch) : List Leaf := b.children.filterMap Tree.leaf?

def tokens (b : Branch) : List Leaf := b.tree.tokens

/-- The texts of the tokens with single spaces between them. -/
def text (b : Branch) : String := " ".intercalate (b.tokens.map (·.text))

/-- The branches of a rule in this one, itself included. -/
def findAll (b : Branch) (rule : String) : List Branch := b.tree.findAll rule

end Branch
end Multipath
