import StylePrep.Encoding.Bits

/-!
# Huffman codes

A code gives each symbol a word of bits, and no word is the start of another. Its
words are fixed by their lengths: shorter words come first, words of one length
are consecutive numbers, and symbols of one length have them in their own order.
A symbol of length zero has no word.
-/

namespace StylePrep.Encoding.Huffman

def maxLength : Nat := 15

/-- The symbols of a word length, in order. -/
def symbolsOfLength (lengths : List Nat) (length : Nat) : List Nat :=
  lengths.zipIdx.filterMap fun (l, symbol) => if l = length then some symbol else none

/-- The words of `count` lengths from `length` on, given the first number of that
length. -/
def wordsFrom (lengths : List Nat) : (count length first : Nat) → List (Nat × Bits)
  | 0, _, _ => []
  | count + 1, length, first =>
    let symbols := symbolsOfLength lengths length
    let words := (symbols.zipIdx first).map fun (symbol, n) =>
      (symbol, (Bits.ofNat length n).reverse)
    words ++ wordsFrom lengths count (length + 1) (2 * (first + symbols.length))

/-- The word of each symbol of a code, by the lengths of its symbols. -/
def words (lengths : List Nat) : List (Nat × Bits) := wordsFrom lengths maxLength 1 0

/-- The words of a code as a tree: a bit leads to one of two subtrees. -/
inductive Tree where
  | dead
  | leaf (symbol : Nat)
  | fork (zero one : Tree)
  deriving DecidableEq, Repr

namespace Tree

/-- The tree with one more word. -/
def insert : Tree → Bits → Nat → Tree
  | _, [], symbol => leaf symbol
  | fork zero one, bit :: word, symbol =>
    if bit then fork zero (one.insert word symbol) else fork (zero.insert word symbol) one
  | _, bit :: word, symbol =>
    if bit then fork dead (dead.insert word symbol) else fork (dead.insert word symbol) dead

/-- The tree of a code, by the lengths of its symbols. -/
def ofLengths (lengths : List Nat) : Tree :=
  (words lengths).foldl (fun tree (symbol, word) => tree.insert word symbol) dead

/-- The symbol whose word comes next, and the bits behind it. -/
def read : Tree → Bits → Option (Nat × Bits)
  | leaf symbol, bits => some (symbol, bits)
  | fork zero one, bit :: bits => if bit then one.read bits else zero.read bits
  | _, _ => none

end Tree

end StylePrep.Encoding.Huffman
