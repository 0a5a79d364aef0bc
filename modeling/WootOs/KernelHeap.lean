import WootOs.KernelMemory
import WootOs.MachineInt
import Mathlib.Data.List.Chain

/-!
# The kernel heap

Blocks have a header of four words in front of their data and are linked in
both directions between two blocks without data at the ends of the heap.
Memory is a store of bytes, headers included. Addresses and sizes are 32-bit.

A page that a deallocation leaves without live bytes is given back; what a new
frame in its place holds is arbitrary.
-/

namespace WootOs.KernelHeap

open ByteStore KernelMemory MachineInt

/-- Bytes of a header: next, previous, size, debug name. -/
def headerSize : ℕ := 16

/-- Bytes in a page. -/
def pageSize : ℕ := 4096

/-- Round up to a multiple, as the kernel does in 32 bits. -/
def align (val alignment : ℕ) : ℕ :=
  alignment * ((val + (alignment - 1)) % 2 ^ 32 / alignment) % 2 ^ 32

/-- The block after the given one. -/
def next (m : Store) (blk : ℕ) : ℕ := word m 4 blk

/-- The block before the given one. -/
def previous (m : Store) (blk : ℕ) : ℕ := word m 4 (blk + 4)

/-- Bytes of data of a block. -/
def size (m : Store) (blk : ℕ) : ℕ := word m 4 (blk + 8)

/-- Store a word. -/
def setWord (m : Store) (pos w : ℕ) : Store := patch m pos (leBytes 4 w)

/-- The heap. -/
structure Heap where
  /-- Memory. -/
  mem : Store
  /-- First byte. -/
  heapStart : ℕ
  /-- First byte past the end. -/
  heapEnd : ℕ
  /-- Least alignment of a block. -/
  defaultAlignment : ℕ
  /-- Block without data at the start. -/
  firstBlock : ℕ
  /-- Block without data at the end. -/
  lastBlock : ℕ

namespace Heap

/-- Set up an empty heap; the debug names are pointers to texts. -/
def initializeHeap (m : Store) (start finish defaultAlignment startName endName : ℕ) : Heap :=
  let first := start
  let last := finish - headerSize
  let m := setWord m first last
  let m := setWord m (first + 4) first
  let m := setWord m (first + 8) 0
  let m := setWord m (first + 12) startName
  let m := setWord m (last + 4) first
  let m := setWord m last last
  let m := setWord m (last + 8) 0
  let m := setWord m (first + 12) endName
  ⟨m,start,finish,defaultAlignment,first,last⟩

/-- Link a new block between two others and give it its size, and fill it with
zeros if wanted. -/
def insertBlock (m : Store) (curBlk newBlk sz : ℕ) (zeroed : Bool) : Store :=
  let m := setWord m newBlk (next m curBlk)
  let m := setWord m curBlk newBlk
  let m := setWord m (newBlk + 4) curBlk
  let m := setWord m (next m newBlk + 4) newBlk
  let m := setWord m (newBlk + 8) sz
  if zeroed then zero m ((newBlk + headerSize) % 2 ^ 32) sz else m

/-- Look for the first gap that is large enough, from the given block on. -/
def allocateFrom (h : Heap) (sz alignment : ℕ) (zeroed : Bool) : ℕ → ℕ → ℕ × Heap
  | 0,_ => (0,h)
  | fuel + 1,curBlk =>
    if curBlk = h.lastBlock then (0,h) else
    let blkDataEnd := (curBlk + headerSize + size h.mem curBlk) % 2 ^ 32
    let nextBlkStart := next h.mem curBlk
    let candidate := align ((blkDataEnd + headerSize) % 2 ^ 32) alignment
    let candidateEnd := (candidate + sz) % 2 ^ 32
    if candidate ≤ nextBlkStart ∧ candidateEnd ≤ nextBlkStart then
      let newBlk := (candidate + (2 ^ 32 - headerSize)) % 2 ^ 32
      (candidate,{ h with mem := insertBlock h.mem curBlk newBlk sz zeroed })
    else allocateFrom h sz alignment zeroed fuel nextBlkStart

/-- Allocate a block; 0 when there is no gap. There are fewer blocks than
bytes. -/
def allocate (h : Heap) (sz alignment : ℕ) (zeroed : Bool) : ℕ × Heap :=
  let alignment := if alignment < h.defaultAlignment then h.defaultAlignment else alignment
  if sz = 0 then (0,h) else h.allocateFrom sz alignment zeroed h.heapEnd h.firstBlock

/-- Largest size that a block can grow to in its place. -/
def getMaxSize (h : Heap) (ptr : ℕ) : ℕ :=
  (next h.mem (ptr - headerSize) + (2 ^ 32 - ptr)) % 2 ^ 32

/-- Take a block out of the list and give back the pages that hold nothing any
more; a new frame there has the given contents. -/
def free (h : Heap) (ptr : ℕ) (fresh : Store) : Heap :=
  let blk := ptr - headerSize
  let prev := previous h.mem blk
  let prevEnd := (prev + headerSize + size h.mem prev) % 2 ^ 32
  let thisEnd := (blk + headerSize + size h.mem blk) % 2 ^ 32
  let m := setWord h.mem prev (next h.mem blk)
  let m := setWord m (next m blk + 4) (previous m blk)
  let prevEndPagePtr := align prevEnd pageSize
  let thisEndPagePtr := pageSize * (thisEnd / pageSize)
  { h with mem := fun a => if prevEndPagePtr ≤ a ∧ a < thisEndPagePtr then fresh a else m a }

/-- Change the size of a block, moving it if it cannot grow where it is. The
result of the allocation is used without a test. -/
def resize (h : Heap) (ptr sz alignment : ℕ) (zeroed : Bool) (fresh : Store) : ℕ × Heap :=
  let alignment := if alignment < h.defaultAlignment then h.defaultAlignment else alignment
  if ptr = 0 then h.allocate sz alignment zeroed
  else if sz = 0 then (0,h.free ptr fresh) else
  let blk := ptr - headerSize
  if sz > size h.mem blk ∧ (ptr % alignment ≠ 0 ∨ sz > h.getMaxSize ptr) then
    let r := h.allocate sz alignment zeroed
    let h := { r.2 with mem := move r.2.mem r.1 ptr (size r.2.mem blk) }
    (r.1,h.free ptr fresh)
  else
    let sizeDiff := signed 32 ((sz : ℤ) - size h.mem blk)
    let m := if zeroed = true ∧ sizeDiff > 0 then
        zero h.mem (ptr + size h.mem blk) sizeDiff.toNat
      else h.mem
    (ptr,{ h with mem := setWord m (blk + 8) sz })

/-- The blocks met on the way to the last one. -/
def blocksFrom (h : Heap) : ℕ → ℕ → List ℕ
  | 0,blk => [blk]
  | fuel + 1,blk =>
    if blk = h.lastBlock then [blk] else blk :: h.blocksFrom fuel (next h.mem blk)

/-- The blocks in the order of the list. -/
def blocks (h : Heap) : List ℕ := h.blocksFrom h.heapEnd h.firstBlock

end Heap

/-- Two neighbours of the list: linked both ways, and the second one starts
past the data of the first. -/
structure Neighbours (m : Store) (a b : ℕ) : Prop where
  /-- Forward link. -/
  forward : next m a = b
  /-- Backward link. -/
  backward : previous m b = a
  /-- Header and data of the first end before the second. -/
  below : a + headerSize + size m a ≤ b

/-- A heap whose blocks are the given ones, in order of their addresses. -/
structure Linked (h : Heap) (l : List ℕ) : Prop where
  /-- All neighbours are linked and apart. -/
  chain : l.IsChain (Neighbours h.mem)
  /-- It starts with the first block. -/
  head : l.head? = some h.firstBlock
  /-- It ends with the last block. -/
  last : l.getLast? = some h.lastBlock
  /-- The first block has no block before it. -/
  first : previous h.mem h.firstBlock = h.firstBlock
  /-- The last block has no block after it. -/
  final : next h.mem h.lastBlock = h.lastBlock
  /-- Nor does it have data. -/
  empty : size h.mem h.lastBlock = 0
  /-- The heap starts with the first block. -/
  start : h.firstBlock = h.heapStart
  /-- The heap ends with the last block. -/
  finish : h.lastBlock + headerSize = h.heapEnd
  /-- Addresses have 32 bits. -/
  small : h.heapEnd < 2 ^ 32

/-- The heap is in order. -/
def WellFormed (h : Heap) : Prop := Linked h h.blocks

/-- A pointer to the data of a block other than the first and the last. -/
def Live (h : Heap) (ptr : ℕ) : Prop :=
  ∃ blk ∈ h.blocks, blk ≠ h.firstBlock ∧ blk ≠ h.lastBlock ∧ ptr = blk + headerSize

instance (h : Heap) (ptr : ℕ) : Decidable (Live h ptr) :=
  inferInstanceAs (Decidable (∃ blk ∈ h.blocks,
    blk ≠ h.firstBlock ∧ blk ≠ h.lastBlock ∧ ptr = blk + headerSize))

section

variable {h : Heap} {m m' : Store} {l : List ℕ} {a b c : ℕ}

/-- A stored word is read back. -/
theorem word_setWord_same {pos w : ℕ} (hw : w < 2 ^ 32) : word (setWord m pos w) 4 pos = w :=
  word_patch_same (by simpa using hw)

/-- Other words stay. -/
theorem word_setWord_other {pos w p : ℕ} (h : p + 4 ≤ pos ∨ pos + 4 ≤ p) :
    word (setWord m pos w) 4 p = word m 4 p :=
  word_patch_disjoint (by rwa [leBytes_length])

/-- Storing a word changes its four bytes only. -/
theorem setWord_out {pos w : ℕ} (h : a < pos ∨ pos + 4 ≤ a) : setWord m pos w a = m a :=
  patch_out (by rwa [leBytes_length])

/-- The end of a block's data moves up along the list. -/
theorem chain_pairwise (hc : l.IsChain (Neighbours m)) :
    l.Pairwise fun a b => a + headerSize + size m a ≤ b := by
  have htrans : IsTrans ℕ fun a b => a + headerSize + size m a ≤ b := ⟨fun a b c h1 h2 => by omega⟩
  exact List.isChain_iff_pairwise.mp (hc.imp fun a b hab => hab.below)

/-- Links and sizes of a block depend on its header only. -/
theorem fields_congr (h : ∀ o < headerSize, m' (a + o) = m (a + o)) :
    next m' a = next m a ∧ previous m' a = previous m a ∧ size m' a = size m a := by
  have hH : headerSize = 16 := rfl
  refine ⟨word_congr fun i hi => h i (by omega),word_congr fun i hi => ?_,
    word_congr fun i hi => ?_⟩
  · rw [Nat.add_assoc]
    exact h (4 + i) (by omega)
  · rw [Nat.add_assoc]
    exact h (8 + i) (by omega)

/-- A chain that ends at c does not look at the forward link of c. -/
theorem chain_below (hc : (l ++ [c]).IsChain (Neighbours m))
    (hmem : ∀ x, x < c ∨ (c + 4 ≤ x ∧ x < c + 8) → m' x = m x) :
    (l ++ [c]).IsChain (Neighbours m') := by
  have hle : ∀ b ∈ l ++ [c], b = c ∨ b + headerSize ≤ c := by
    intro b hb
    rcases List.mem_append.mp hb with hl | hsingle
    · have := (List.pairwise_append.mp (chain_pairwise hc)).2.2 b hl c (by simp)
      exact .inr (by omega)
    · exact .inl (by simpa using hsingle)
  refine hc.imp_of_mem_imp ?_
  intro a b ha hb hab
  have hbelow := hab.below
  have hac : a + headerSize ≤ c := by
    rcases hle b hb with rfl | h' <;> omega
  obtain ⟨hn,-,hs⟩ := @fields_congr m m' a fun o ho => hmem _ (.inl (by omega))
  have hp : previous m' b = previous m b := by
    refine word_congr fun i hi => hmem _ ?_
    rcases hle b hb with rfl | h'
    · exact .inr (by omega)
    · exact .inl (by rw [headerSize] at h'; omega)
  exact ⟨by rw [hn]; exact hab.forward,by rw [hp]; exact hab.backward,by rw [hs]; exact hbelow⟩

/-- A chain that starts at c does not look at the backward link of c. -/
theorem chain_above (hc : (c :: l).IsChain (Neighbours m))
    (hmem : ∀ x, c ≤ x ∧ (x < c + 4 ∨ c + 8 ≤ x) → m' x = m x) :
    (c :: l).IsChain (Neighbours m') := by
  have hH : headerSize = 16 := rfl
  have hge : ∀ a ∈ c :: l, a = c ∨ c + headerSize ≤ a := by
    intro a ha
    rcases List.mem_cons.mp ha with rfl | hl
    · exact .inl rfl
    · have := (List.pairwise_cons.mp (chain_pairwise hc)).1 a hl
      exact .inr (by omega)
  refine hc.imp_of_mem_imp ?_
  intro a b ha hb hab
  have hbelow := hab.below
  have hcb : c + headerSize ≤ b := by
    rcases hge a ha with rfl | h' <;> omega
  have hn : next m' a = next m a := by
    refine word_congr fun i hi => hmem _ ?_
    rcases hge a ha with rfl | h' <;> omega
  have hs : size m' a = size m a := by
    refine word_congr fun i hi => hmem _ ?_
    rcases hge a ha with rfl | h' <;> omega
  obtain ⟨-,hp,-⟩ := @fields_congr m m' b fun o ho => hmem _
    (by omega)
  exact ⟨by rw [hn]; exact hab.forward,by rw [hp]; exact hab.backward,by rw [hs]; exact hbelow⟩

end

end WootOs.KernelHeap
