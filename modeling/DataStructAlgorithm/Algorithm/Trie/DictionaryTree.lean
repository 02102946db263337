import DataStructAlgorithm.Foundation.Segments
import DataStructAlgorithm.Foundation.Slots
import DataStructAlgorithm.Foundation.Store
import DataStructAlgorithm.Foundation.Text

/-! # The dictionary tree of `Trie/Trie.cpp` and `DictionaryTree/Trie.cpp`

The two files are the same. A `Node` has a segment and a vector of pointers to its children,
none of which is null. -/

namespace DataStructAlgorithm.Algorithm.Trie

open Foundation

structure Node where
  file : List Byte
  next : List Nat
  deriving DecidableEq, Repr

/-- `new Node(file)` -/
def Node.new (file : List Byte) : Node := ⟨file, []⟩

structure DictionaryTree where
  heap : Store Node
  root : Ptr

namespace DictionaryTree

/-- `DictionaryTree()` -/
def empty : DictionaryTree := ⟨.empty, none⟩

/-- The segments of a URL, each from a slash on. -/
def parsingPath (url : List Byte) : List (List Byte) :=
  let idx := (List.range url.length).filter fun i => url[i]? = some 47
  if idx = [] then []
  else
    let idx := idx ++ [url.length]
    (List.range (idx.length - 1)).map fun i =>
      (url.drop (idx.getD i 0)).take (idx.getD (i + 1) 0 - idx.getD i 0)

/-- The variables of the loop that follows a path into the tree. -/
structure Search where
  tmp : Nat
  idx : Nat
  i : Nat
  deriving DecidableEq, Repr

def searchPass (heap : Store Node) (path : List (List Byte)) (search : Search) :
    Outcome (Pass Search Search) := do
  let tmp ← heap.load (some search.tmp)
  if search.i < tmp.next.length then
    if search.idx < path.length then
      let child ← readAt tmp.next search.i
      let node ← heap.load (some child)
      if path[search.idx]? = some node.file then pure (.again ⟨child, search.idx + 1, 0⟩)
      else pure (.again { search with i := search.i + 1 })
    else pure (.again { search with i := search.i + 1 })
  else pure (.leave search)

/-- The variables of the loop that adds the rest of a path. -/
structure Growth where
  heap : Store Node
  tmp : Nat
  idx : Nat

def growPass (path : List (List Byte)) (growth : Growth) : Outcome (Pass Growth (Store Node)) :=
  match path[growth.idx]? with
  | none => pure (.leave growth.heap)
  | some file => do
      let node := growth.heap.next
      let heap ← (growth.heap.alloc (.new file)).assign (some growth.tmp) fun tmp =>
        { tmp with next := tmp.next ++ [node] }
      let tmp ← heap.load (some growth.tmp)
      let last ← readAt tmp.next (tmp.next.length - 1)
      pure (.again ⟨heap, last, growth.idx + 1⟩)

/-- `new Node("www.kujiale.com")`, unless there is a root. -/
def ensureRoot (tree : DictionaryTree) : DictionaryTree × Nat :=
  match tree.root with
  | some root => (tree, root)
  | none => (⟨tree.heap.alloc (.new (ascii "www.kujiale.com")), some tree.heap.next⟩,
      tree.heap.next)

/-- `Insert(url, insert)`; the search begins at the second child of the root. -/
def insert (fuel : Nat) (tree : DictionaryTree) (url : List Byte) (insert : Bool) :
    Outcome (DictionaryTree × Bool) := do
  let path := parsingPath url
  let (tree, root) := tree.ensureRoot
  let found ← repeatLoop (searchPass tree.heap path) fuel ⟨root, 0, 1⟩
  if !insert then
    if found.idx ≤ path.length then pure (tree, true) else pure (tree, false)
  else
    let heap ← repeatLoop (growPass path) fuel ⟨tree.heap, found.tmp, found.idx⟩
    pure (⟨heap, tree.root⟩, true)

def findUrl (fuel : Nat) (tree : DictionaryTree) (url : List Byte) :
    Outcome (DictionaryTree × Bool) :=
  insert fuel tree url false

/-- `Insert(url)`, whose result is not used. -/
def insertUrl (fuel : Nat) (tree : DictionaryTree) (url : List Byte) : Outcome DictionaryTree := do
  let (tree, _) ← insert fuel tree url true
  pure tree

end DictionaryTree

end DataStructAlgorithm.Algorithm.Trie

/-! ## The segments of a URL

What `ParsingPath` keeps of a URL. -/

namespace DataStructAlgorithm.Algorithm.Trie

open Foundation

namespace DictionaryTree

/-- What is in a URL from its first slash on. -/
def fromSlash (url : List Byte) : List Byte := url.dropWhile (· != 47)

theorem parsingPath_eq (url : List Byte) : parsingPath url = segments 47 url := by
  rw [← cuts_positions]
  show (if positions 47 url = [] then [] else cuts url (positions 47 url ++ [url.length])) = _
  split
  · rename_i noSlash
    rw [noSlash]
    rfl
  · rfl

end DictionaryTree

end DataStructAlgorithm.Algorithm.Trie
