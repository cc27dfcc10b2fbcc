/-!
# Prefix codes

A prefix code gives symbols codes of bits, none of which starts with another one. It is given by the lengths
of the codes alone: among codes of one length those of smaller symbols come first, and shorter codes come
before longer ones. Codes stand in a tree whose branches are the bits.

* `insert_reads` — along its code a symbol is found that has just been put there.
-/

namespace DesignTokens.Deflate

/-- The symbols below a place in a code. -/
inductive CodeTree where
  | vacant
  | symbol (symbol : Nat)
  | branch (zero one : CodeTree)
  deriving Inhabited

namespace CodeTree

/-- The tree with a symbol put at the end of a code. -/
def insert (symbol : Nat) : List Bool → CodeTree → CodeTree
  | [], _ => .symbol symbol
  | false :: bits, .branch zero one => .branch (insert symbol bits zero) one
  | true :: bits, .branch zero one => .branch zero (insert symbol bits one)
  | false :: bits, _ => .branch (insert symbol bits .vacant) .vacant
  | true :: bits, _ => .branch .vacant (insert symbol bits .vacant)

/-- What lies along bits. -/
def reached : List Bool → CodeTree → CodeTree
  | [], tree => tree
  | bit :: bits, .branch zero one => reached bits (if bit then one else zero)
  | _ :: _, _ => .vacant

theorem insert_reads (symbol : Nat) (bits : List Bool) (tree : CodeTree) :
    reached bits (insert symbol bits tree) = .symbol symbol := by
  induction bits generalizing tree with
  | nil => rfl
  | cons bit bits ih => cases bit <;> cases tree <;> simp [insert, reached, ih]

end CodeTree

namespace PrefixCode

/-- The longest code. -/
def maximalLength : Nat := 15

/-- The bits of a code, the first one first. -/
def bitsOf (length code : Nat) : List Bool := (List.range length).reverse.map code.testBit

/-- The symbols with codes of a length. -/
def symbolsOf (lengths : List Nat) (length : Nat) : List Nat :=
  (lengths.zipIdx.filter (·.1 = length)).map (·.2)

/-- How many codes of the greatest length could be added; negative if there are too many codes. -/
def room (lengths : List Nat) : Int :=
  ((List.range maximalLength).map (· + 1)).foldl
    (fun (room : Int) length => 2 * room - (symbolsOf lengths length).length) 1

/-- Whether lengths are those of a code: one that leaves no room, unless there are no codes, or a single one
of one bit and `mayBeSingle`. -/
def isCode (mayBeSingle : Bool) (lengths : List Nat) : Bool :=
  let longest := lengths.foldl max 0
  longest = 0 || room lengths = 0 || (0 < room lengths && mayBeSingle && longest = 1)

/-- The tree of the code with given lengths. A first bit is always read. -/
def tree (lengths : List Nat) : CodeTree :=
  (((List.range maximalLength).map (· + 1)).foldl (fun (tree, first) length =>
    let symbols := symbolsOf lengths length
    (symbols.zipIdx.foldl (fun tree (symbol, i) =>
      CodeTree.insert symbol (bitsOf length (2 * first + i)) tree) tree, 2 * first + symbols.length))
    (CodeTree.branch .vacant .vacant, 0)).1

end PrefixCode

end DesignTokens.Deflate
