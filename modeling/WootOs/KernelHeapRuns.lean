import WootOs.KernelHeapOrder

/-!
# Histories of the kernel heap

Every history of calls keeps the blocks in order, apart and inside the heap
and leaves the contents of blocks alone that it is not asked to change, as
long as no address wraps and no block that must move is moved to nowhere.
-/

namespace WootOs.KernelHeap

open ByteStore KernelMemory MachineInt

/-- The alignment that a caller gets. -/
def Heap.alignmentOf (h : Heap) (alignment : ℕ) : ℕ :=
  if alignment < h.defaultAlignment then h.defaultAlignment else alignment

/-- First place for data behind a block that leaves room for a header. -/
def candidate (m : Store) (alignment blk : ℕ) : ℕ :=
  alignment * ((blk + headerSize + size m blk + headerSize + (alignment - 1)) / alignment)

/-- No address computed on the way to the first gap that is large enough
reaches 4 GiB. -/
def NoWrap (m : Store) (sz alignment : ℕ) : List ℕ → Prop
  | cur :: nxt :: rest =>
    cur + headerSize + size m cur + headerSize + (alignment - 1) < 2 ^ 32 ∧
    candidate m alignment cur + sz < 2 ^ 32 ∧
    (candidate m alignment cur + sz ≤ nxt ∨ NoWrap m sz alignment (nxt :: rest))
  | _ => True

instance decidableNoWrap (m : Store) (sz alignment : ℕ) : ∀ l, Decidable (NoWrap m sz alignment l)
  | [] => isTrue trivial
  | [_] => isTrue trivial
  | cur :: nxt :: rest =>
    have := decidableNoWrap m sz alignment (nxt :: rest)
    inferInstanceAs (Decidable (cur + headerSize + size m cur + headerSize + (alignment - 1) < 2 ^ 32 ∧
      candidate m alignment cur + sz < 2 ^ 32 ∧
      (candidate m alignment cur + sz ≤ nxt ∨ NoWrap m sz alignment (nxt :: rest))))

/-- Some gap is large enough. -/
def HasGap (m : Store) (sz alignment : ℕ) : List ℕ → Prop
  | cur :: nxt :: rest =>
    candidate m alignment cur + sz ≤ nxt ∨ HasGap m sz alignment (nxt :: rest)
  | _ => False

section

variable {h : Heap} {l l₁ l₂ : List ℕ} {sz alignment : ℕ} {zeroed : Bool}

/-- The candidate leaves room for a header and is aligned. -/
theorem candidate_spec (m : Store) (ha : 0 < alignment) (blk : ℕ) :
    blk + headerSize + size m blk + headerSize ≤ candidate m alignment blk ∧
    candidate m alignment blk ≤
      blk + headerSize + size m blk + headerSize + (alignment - 1) ∧
    alignment ∣ candidate m alignment blk := by
  have hdm := Nat.div_add_mod (blk + headerSize + size m blk + headerSize + (alignment - 1)) alignment
  have hlt := Nat.mod_lt (blk + headerSize + size m blk + headerSize + (alignment - 1)) ha
  refine ⟨?_,?_,Nat.dvd_mul_right _ _⟩
  · rw [candidate]
    omega
  · rw [candidate]
    omega

/-- Without a wrap the driver computes the candidate. -/
theorem align_candidate (m : Store) (ha : 0 < alignment) {blk : ℕ}
    (hwrap : blk + headerSize + size m blk + headerSize + (alignment - 1) < 2 ^ 32) :
    align (((blk + headerSize + size m blk) % 2 ^ 32 + headerSize) % 2 ^ 32) alignment =
      candidate m alignment blk := by
  obtain ⟨-,hle,-⟩ := candidate_spec m ha blk
  rw [Nat.mod_eq_of_lt (by omega : blk + headerSize + size m blk < 2 ^ 32),
    Nat.mod_eq_of_lt (by omega),align,Nat.mod_eq_of_lt hwrap]
  rw [candidate] at hle ⊢
  exact Nat.mod_eq_of_lt (by omega)

/-- The search from one block on: a gap is filled, or there is none. -/
theorem allocateFrom_spec (ha : 0 < alignment) : ∀ {rest l₁ : List ℕ} {cur fuel : ℕ},
    Linked h (l₁ ++ cur :: rest) → rest.length < fuel → NoWrap h.mem sz alignment (cur :: rest) →
    (h.allocateFrom sz alignment zeroed fuel cur = (0,h) ∧ ¬HasGap h.mem sz alignment (cur :: rest)) ∨
    ∃ l₁' cur' nxt l₂', l₁ ++ cur :: rest = l₁' ++ cur' :: nxt :: l₂' ∧
      candidate h.mem alignment cur' + sz ≤ nxt ∧
      h.allocateFrom sz alignment zeroed fuel cur = (candidate h.mem alignment cur',
        { h with mem := Heap.insertBlock h.mem cur' (candidate h.mem alignment cur' - headerSize)
                          sz zeroed }) := by
  have hH : headerSize = 16 := rfl
  intro rest
  induction rest with
  | nil =>
    intro l₁ cur fuel hl hfuel _
    obtain ⟨fuel,rfl⟩ := Nat.exists_eq_succ_of_ne_zero (Nat.ne_of_gt hfuel)
    have hlast := hl.last
    rw [List.getLast?_append_cons,List.getLast?_singleton,Option.some.injEq] at hlast
    exact .inl ⟨by rw [Heap.allocateFrom,if_pos hlast],fun hgap => hgap⟩
  | cons nxt rest ih =>
    intro l₁ cur fuel hl hfuel hwrap
    obtain ⟨fuel,rfl⟩ := Nat.exists_eq_succ_of_ne_zero (Nat.ne_of_gt (Nat.lt_of_le_of_lt (Nat.zero_le _) hfuel))
    obtain ⟨-,hpair,-⟩ := chain_split hl.chain
    obtain ⟨hw1,hw2,hw3⟩ := hwrap
    obtain ⟨hge,-,-⟩ := candidate_spec h.mem ha cur
    have hbelow := hpair.below
    have hne : cur ≠ h.lastBlock := by
      have := hl.end_le (a := nxt) (by simp)
      have := hl.finish
      omega
    rw [Heap.allocateFrom,if_neg hne]
    simp only [align_candidate h.mem ha hw1,hpair.forward,Nat.mod_eq_of_lt hw2]
    by_cases hfit : candidate h.mem alignment cur + sz ≤ nxt
    · refine .inr ⟨l₁,cur,nxt,rest,rfl,hfit,?_⟩
      have hnew : (candidate h.mem alignment cur + (2 ^ 32 - headerSize)) % 2 ^ 32 =
          candidate h.mem alignment cur - headerSize := by
        omega
      rw [if_pos ⟨by omega,hfit⟩,hnew]
    · rw [if_neg fun hboth => hfit hboth.2]
      have hl' : Linked h ((l₁ ++ [cur]) ++ nxt :: rest) := by simpa using hl
      rcases ih hl' (by simpa using hfuel) (hw3.resolve_left hfit) with ⟨hnone,hgap⟩ | hfound
      · exact .inl ⟨hnone,fun hg => hgap (hg.resolve_left hfit)⟩
      · obtain ⟨l₁',cur',nxt',l₂',hsplit,hfit',hrun⟩ := hfound
        exact .inr ⟨l₁',cur',nxt',l₂',by simpa using hsplit,hfit',hrun⟩

/-- Allocation searches from the first block on with enough fuel. -/
theorem allocate_eq (hl : Linked h l) (hsz : sz ≠ 0) :
    ∃ rest, l = h.firstBlock :: rest ∧ rest.length < h.heapEnd ∧
      h.allocate sz alignment zeroed =
        h.allocateFrom sz (h.alignmentOf alignment) zeroed h.heapEnd h.firstBlock := by
  have hH : headerSize = 16 := rfl
  obtain ⟨rest,rfl⟩ : ∃ rest, l = h.firstBlock :: rest := by
    cases l with
    | nil => have := hl.head; simp at this
    | cons b rest => exact ⟨rest,by have := hl.head; simp at this; rw [this]⟩
  have hlen := chain_length hl.chain hl.last
  have hfinish := hl.finish
  refine ⟨rest,rfl,by rw [hH] at hlen; omega,?_⟩
  rw [Heap.allocate,if_neg hsz]
  rfl

theorem alignmentOf_pos (ha : 0 < alignment) : 0 < h.alignmentOf alignment := by
  rw [Heap.alignmentOf]
  split <;> omega

/-- Allocation fills the first gap that is large enough, or there is none. -/
theorem allocate_spec (hl : Linked h l) (hsz : sz ≠ 0) (ha : 0 < alignment)
    (hwrap : NoWrap h.mem sz (h.alignmentOf alignment) l) :
    (h.allocate sz alignment zeroed = (0,h) ∧ ¬HasGap h.mem sz (h.alignmentOf alignment) l) ∨
    ∃ l₁ cur nxt l₂ h', l = l₁ ++ cur :: nxt :: l₂ ∧
      h.allocate sz alignment zeroed = (candidate h.mem (h.alignmentOf alignment) cur,h') ∧
      h.alignmentOf alignment ∣ candidate h.mem (h.alignmentOf alignment) cur ∧
      headerSize < candidate h.mem (h.alignmentOf alignment) cur ∧
      cur + headerSize + size h.mem cur + headerSize ≤ candidate h.mem (h.alignmentOf alignment) cur ∧
      candidate h.mem (h.alignmentOf alignment) cur + sz ≤ nxt ∧
      h' = { h with mem := h'.mem } ∧
      Linked h' (l₁ ++ cur :: (candidate h.mem (h.alignmentOf alignment) cur - headerSize) :: nxt :: l₂) ∧
      size h'.mem (candidate h.mem (h.alignmentOf alignment) cur - headerSize) = sz ∧
      ∀ a ∈ l, a ≠ h.firstBlock → a ≠ h.lastBlock → Kept h h' (a + headerSize) := by
  have hH : headerSize = 16 := rfl
  have hpos := @alignmentOf_pos h alignment ha
  obtain ⟨rest,rfl,hlen,hrun⟩ := @allocate_eq h l sz alignment zeroed hl hsz
  have hspec := @allocateFrom_spec h sz (h.alignmentOf alignment) zeroed hpos rest [] h.firstBlock
    h.heapEnd hl hlen hwrap
  rw [hrun]
  rcases hspec with ⟨hnone,hgap⟩ | ⟨l₁,cur,nxt,l₂,hsplit,hfit,hfound⟩
  · exact .inl ⟨hnone,hgap⟩
  · rw [List.nil_append] at hsplit
    rw [hsplit] at hl
    obtain ⟨hge,-,hdvd⟩ := candidate_spec h.mem hpos cur
    have hcand : candidate h.mem (h.alignmentOf alignment) cur - headerSize + headerSize =
        candidate h.mem (h.alignmentOf alignment) cur := by
      omega
    obtain ⟨hlinked,hsize,hkept⟩ := @Linked.insert h l₁ l₂ cur nxt hl
      (candidate h.mem (h.alignmentOf alignment) cur - headerSize) sz zeroed
      (by omega) (by rw [hcand]; exact hfit)
    exact .inr ⟨l₁,cur,nxt,l₂,_,hsplit,hfound,hdvd,by omega,hge,hfit,
      rfl,hlinked,hsize,by rw [hsplit]; exact hkept⟩

/-- A live block can be freed outside the last page of the address space. -/
theorem Linked.free_live (hl : Linked h l) {blk : ℕ} (hb : blk ∈ l) (hfirst : blk ≠ h.firstBlock)
    (hlast : blk ≠ h.lastBlock) (hpage : blk + (pageSize - 1) < 2 ^ 32) (fresh : Store) :
    Linked (h.free (blk + headerSize) fresh) (l.erase blk) ∧
    ∀ a ∈ l, a ≠ h.firstBlock → a ≠ h.lastBlock → a ≠ blk →
      Kept h (h.free (blk + headerSize) fresh) (a + headerSize) := by
  have hH : headerSize = 16 := rfl
  obtain ⟨l₁,prv,nxt,l₂,rfl⟩ := hl.between hb hfirst hlast
  have hp := chain_pairwise hl.chain
  have hnodup : (l₁ ++ prv :: blk :: nxt :: l₂).Nodup :=
    hp.imp fun {a b} hab => by omega
  have herase : (l₁ ++ prv :: blk :: nxt :: l₂).erase blk = l₁ ++ prv :: nxt :: l₂ := by
    have h1 : blk ∉ l₁ ++ [prv] := by
      intro hin
      rw [show l₁ ++ prv :: blk :: nxt :: l₂ = (l₁ ++ [prv]) ++ blk :: nxt :: l₂ by simp] at hnodup
      exact (List.nodup_append.mp hnodup).2.2 blk hin blk (by simp) rfl
    rw [show l₁ ++ prv :: blk :: nxt :: l₂ = (l₁ ++ [prv]) ++ blk :: nxt :: l₂ by simp,
      List.erase_append_right _ h1]
    simp
  have hprv := (chain_split hl.chain).2.1
  have hwrap : prevEnd h (blk + headerSize) + (pageSize - 1) < 2 ^ 32 := by
    have := hprv.below
    rw [prevEnd,Nat.add_sub_cancel,hprv.backward]
    omega
  obtain ⟨hlinked,hkept⟩ := hl.free fresh hwrap
  rw [herase]
  refine ⟨hlinked,?_⟩
  intro a ha hf hz hne
  refine hkept a ?_ hf hz
  rw [←herase]
  exact (List.mem_erase_of_ne hne).mpr ha

end

section

variable {h : Heap} {l l₁ l₂ : List ℕ} {blk nxt sz : ℕ}

/-- Bytes written in the data of one block disturb neither the list nor other
blocks. -/
theorem Linked.fill (hl : Linked h (l₁ ++ blk :: nxt :: l₂)) {m' : Store}
    (hmem : ∀ x, x < blk + headerSize ∨ nxt ≤ x → m' x = h.mem x) :
    Linked { h with mem := m' } (l₁ ++ blk :: nxt :: l₂) ∧
    ∀ a ∈ l₁ ++ blk :: nxt :: l₂, a ≠ h.firstBlock → a ≠ h.lastBlock → a ≠ blk →
      Kept h { h with mem := m' } (a + headerSize) := by
  have hp := chain_pairwise hl.chain
  have hlinked : Linked { h with mem := m' } (l₁ ++ blk :: nxt :: l₂) := by
    refine hl.of_headers ?_
    intro a ha o ho
    by_cases he : a = blk
    · rw [he]
      exact hmem _ (.inl (by omega))
    · rcases apart_from_gap hp ha he with hlow | hhigh
      · exact hmem _ (.inl (by omega))
      · exact hmem _ (.inr (by omega))
  refine ⟨hlinked,?_⟩
  intro a ha hfirst hlast hne
  refine kept_of_mem hlinked ha hfirst hlast ?_
  intro x hx hu
  rcases apart_from_gap hp ha hne with hlow | hhigh
  · exact hmem x (.inl (by omega))
  · exact hmem x (.inr (by omega))

/-- Changing the size of a block up to its neighbour keeps the order. -/
theorem Linked.setSize (hl : Linked h (l₁ ++ blk :: nxt :: l₂))
    (hfit : blk + headerSize + sz ≤ nxt) :
    Linked { h with mem := setWord h.mem (blk + 8) sz } (l₁ ++ blk :: nxt :: l₂) ∧
    ∀ a ∈ l₁ ++ blk :: nxt :: l₂, a ≠ h.firstBlock → a ≠ h.lastBlock → a ≠ blk →
      Kept h { h with mem := setWord h.mem (blk + 8) sz } (a + headerSize) := by
  have hH : headerSize = 16 := rfl
  obtain ⟨-,hpair,-⟩ := chain_split hl.chain
  have hend := hl.end_le (a := nxt) (by simp)
  have hsmall := hl.small
  have hlinked : Linked { h with mem := setWord h.mem (blk + 8) sz }
      (l₁ ++ blk :: nxt :: l₂) := by
    refine @Linked.replace h _ l₁ l₂ blk nxt [] [] hl ?_ ?_
    · simp only [List.nil_append,List.isChain_cons_cons,List.isChain_singleton,and_true]
      refine ⟨?_,?_,?_⟩
      · rw [next,word_congr (t := h.mem) (q := blk) fun i hi => setWord_out (by omega)]
        exact hpair.forward
      · rw [previous,word_congr (t := h.mem) (q := nxt + 4) fun i hi => setWord_out (by omega)]
        exact hpair.backward
      · rw [size,word_setWord_same (by omega)]
        exact hfit
    · intro x hx
      exact setWord_out (by omega)
  refine ⟨hlinked,?_⟩
  intro a ha hfirst hlast hne
  refine kept_of_mem hlinked ha hfirst hlast ?_
  intro x hx hu
  rcases apart_from_gap (chain_pairwise hl.chain) ha hne with hlow | hhigh
  · exact setWord_out (by omega)
  · exact setWord_out (by omega)

end

/-- A call of the heap. Calls that free a block say what the frames hold that
later take the place of those given back. -/
inductive HeapOp where
  /-- Allocate a block. -/
  | allocate (sz alignment : ℕ) (zeroed : Bool)
  /-- Change the size of a block. -/
  | resize (ptr sz alignment : ℕ) (zeroed : Bool) (fresh : Store)
  /-- Free a block. -/
  | free (ptr : ℕ) (fresh : Store)

/-- Result and heap after a call. -/
def applyOp (h : Heap) : HeapOp → ℕ × Heap
  | .allocate sz alignment zeroed => h.allocate sz alignment zeroed
  | .resize ptr sz alignment zeroed fresh => h.resize ptr sz alignment zeroed fresh
  | .free ptr fresh => (0,h.free ptr fresh)

/-- The block that a call is about. -/
def HeapOp.subject : HeapOp → Option ℕ
  | .allocate _ _ _ => none
  | .resize ptr _ _ _ _ => some ptr
  | .free ptr _ => some ptr

/-- Arguments that callers pass: 32-bit numbers, at least one for an alignment,
and live pointers. -/
def HeapOp.Valid (h : Heap) : HeapOp → Prop
  | .allocate sz alignment _ => sz < 2 ^ 32 ∧ 0 < alignment ∧ alignment < 2 ^ 32
  | .resize ptr sz alignment _ _ =>
    sz < 2 ^ 32 ∧ 0 < alignment ∧ alignment < 2 ^ 32 ∧ (ptr = 0 ∨ Live h ptr)
  | .free ptr _ => Live h ptr

/-- A block that cannot get the size where it is. -/
def MustMove (h : Heap) (ptr sz alignment : ℕ) : Prop :=
  size h.mem (ptr - headerSize) < sz ∧
    (ptr % h.alignmentOf alignment ≠ 0 ∨ next h.mem (ptr - headerSize) < ptr + sz)

/-- A block outside the last page of the address space. -/
def Freeable (ptr : ℕ) : Prop := ptr - headerSize + (pageSize - 1) < 2 ^ 32

/-- A call on whose way no address wraps; a block that must move finds a gap,
or is not larger than the addresses below the heap; a block that shrinks in
place with its tail to be cleared shrinks by at most 2 GiB. -/
def HeapOp.Safe (h : Heap) : HeapOp → Prop
  | .allocate sz alignment _ => NoWrap h.mem sz (h.alignmentOf alignment) h.blocks
  | .free ptr _ => Freeable ptr
  | .resize ptr sz alignment zeroed _ =>
    if ptr = 0 then NoWrap h.mem sz (h.alignmentOf alignment) h.blocks
    else if sz = 0 then Freeable ptr
    else
      (MustMove h ptr sz alignment →
        Freeable ptr ∧ NoWrap h.mem sz (h.alignmentOf alignment) h.blocks ∧
        (HasGap h.mem sz (h.alignmentOf alignment) h.blocks ∨
          size h.mem (ptr - headerSize) ≤ h.heapStart)) ∧
      (¬MustMove h ptr sz alignment → zeroed = true →
        size h.mem (ptr - headerSize) ≤ sz + 2 ^ 31)

/-- Blocks are linked both ways in the order of their addresses, and headers
and data are disjoint and inside the heap. -/
structure InOrder (h : Heap) : Prop where
  /-- The list. -/
  linked : Linked h h.blocks
  /-- Headers and data do not overlap. -/
  apart : h.blocks.Pairwise fun a b => a + headerSize + size h.mem a ≤ b
  /-- They are inside. -/
  inside : ∀ a ∈ h.blocks, h.heapStart ≤ a ∧ a + headerSize + size h.mem a ≤ h.heapEnd

/-- What a call should do: pointers are aligned, and blocks that it is not
about keep size and contents. -/
def HeapOp.Right (h : Heap) (op : HeapOp) : Prop :=
  (∀ sz alignment zeroed, op = .allocate sz alignment zeroed →
    (h.allocate sz alignment zeroed).1 ≠ 0 →
      max alignment h.defaultAlignment ∣ (h.allocate sz alignment zeroed).1 ∧
      Live (applyOp h op).2 (h.allocate sz alignment zeroed).1 ∧
      size (applyOp h op).2.mem ((h.allocate sz alignment zeroed).1 - headerSize) = sz) ∧
  ∀ ptr, Live h ptr → op.subject ≠ some ptr → Kept h (applyOp h op).2 ptr

/-- In every state of the history the heap is in order, and every call does
what it should. -/
def HeapRight : Heap → List HeapOp → Prop
  | h,[] => InOrder h
  | h,op :: ops => InOrder h ∧ op.Right h ∧ HeapRight (applyOp h op).2 ops

/-- Every call of the history is valid and safe in its state. -/
def SafeRun : Heap → List HeapOp → Prop
  | _,[] => True
  | h,op :: ops => op.Valid h ∧ op.Safe h ∧ SafeRun (applyOp h op).2 ops

section

variable {h : Heap} {l l₁ l₂ : List ℕ} {cur nxt : ℕ}

theorem Linked.inOrder (hl : Linked h l) : InOrder h := by
  have hb := hl.wellFormed
  exact ⟨hb,chain_pairwise hb.chain,fun a ha => ⟨Linked.start_le hb ha,Linked.end_le hb ha⟩⟩

/-- A kept heap: every live pointer but one is kept. -/
def KeepsOthers (h h' : Heap) (subject : Option ℕ) : Prop :=
  ∀ ptr, Live h ptr → subject ≠ some ptr → Kept h h' ptr

theorem keepsOthers_of_blocks (hl : Linked h l) {h' : Heap} {subject : Option ℕ}
    (hkept : ∀ a ∈ l, a ≠ h.firstBlock → a ≠ h.lastBlock → subject ≠ some (a + headerSize) →
      Kept h h' (a + headerSize)) : KeepsOthers h h' subject := by
  rintro ptr ⟨blk,hb,hfirst,hlast,rfl⟩ hne
  rw [hl.blocks_eq] at hb
  exact hkept blk hb hfirst hlast hne

/-- Nothing changed. -/
theorem kept_refl {ptr : ℕ} (hlive : Live h ptr) : Kept h h ptr := ⟨hlive,rfl,fun _ _ _ => rfl⟩

/-- An allocation keeps the order and all blocks, and its result is aligned. -/
theorem allocate_right (hl : Linked h l) {sz alignment : ℕ} {zeroed : Bool} (ha : 0 < alignment)
    (hwrap : NoWrap h.mem sz (h.alignmentOf alignment) l) :
    (∃ l', Linked (h.allocate sz alignment zeroed).2 l') ∧
    ((h.allocate sz alignment zeroed).1 ≠ 0 →
      max alignment h.defaultAlignment ∣ (h.allocate sz alignment zeroed).1 ∧
      Live (h.allocate sz alignment zeroed).2 (h.allocate sz alignment zeroed).1 ∧
      size (h.allocate sz alignment zeroed).2.mem
        ((h.allocate sz alignment zeroed).1 - headerSize) = sz) ∧
    KeepsOthers h (h.allocate sz alignment zeroed).2 none := by
  have hmax : h.alignmentOf alignment = max alignment h.defaultAlignment := by
    rw [Heap.alignmentOf]
    split <;> omega
  by_cases hsz : sz = 0
  · have hrun : h.allocate sz alignment zeroed = (0,h) := by rw [Heap.allocate,if_pos hsz]
    rw [hrun]
    exact ⟨⟨l,hl⟩,fun hne => absurd rfl hne,fun ptr hlive _ => kept_refl hlive⟩
  · rcases @allocate_spec _ _ _ _ zeroed hl hsz ha hwrap with
      ⟨hrun,-⟩ | ⟨l₁,cur,nxt,l₂,h',hsplit,hrun,hdvd,hpos,hge,hfit,hfields,hlinked,hsize,hkept⟩
    · rw [hrun]
      exact ⟨⟨l,hl⟩,fun hne => absurd rfl hne,fun ptr hlive _ => kept_refl hlive⟩
    · rw [hrun]
      refine ⟨⟨_,hlinked⟩,?_,keepsOthers_of_blocks hl fun a ha hf hz _ => hkept a ha hf hz⟩
      intro _
      rw [hmax] at *
      have hH : headerSize = 16 := rfl
      have hfirst : h'.firstBlock = h.firstBlock := by rw [hfields]
      have hlast : h'.lastBlock = h.lastBlock := by rw [hfields]
      have hin : candidate h.mem (max alignment h.defaultAlignment) cur - headerSize ∈
          l₁ ++ cur :: (candidate h.mem (max alignment h.defaultAlignment) cur - headerSize) ::
            nxt :: l₂ := by simp
      rw [hsplit] at hl
      have hcur := hl.start_le (a := cur) (by simp)
      have hnxt := hl.end_le (a := nxt) (by simp)
      have hstart := hl.start
      have hfinish := hl.finish
      refine ⟨hdvd,⟨_,by rw [hlinked.blocks_eq]; exact hin,?_,?_,by omega⟩,hsize⟩
      · rw [hfirst]
        omega
      · rw [hlast]
        omega

/-- Calls in a row keep what each of them keeps. -/
theorem KeepsOthers.trans {h' h'' : Heap} {subject : Option ℕ} (h₁ : KeepsOthers h h' subject)
    (h₂ : KeepsOthers h' h'' subject) : KeepsOthers h h'' subject := by
  intro ptr hlive hne
  have hk := h₁ ptr hlive hne
  exact hk.trans (h₂ ptr hk.live hne)

theorem KeepsOthers.weaken {h' : Heap} (hk : KeepsOthers h h' none) (subject : Option ℕ) :
    KeepsOthers h h' subject := fun ptr hlive _ => hk ptr hlive (by simp)

/-- Freeing a live block keeps the order and all other blocks. -/
theorem free_linked (hl : Linked h l) {ptr : ℕ} (hlive : Live h ptr) (hs : Freeable ptr)
    (fresh : Store) : (∃ l', Linked (h.free ptr fresh) l') ∧
    KeepsOthers h (h.free ptr fresh) (some ptr) := by
  obtain ⟨blk,hb,hfirst,hlast,rfl⟩ := hlive
  rw [hl.blocks_eq] at hb
  rw [Freeable,Nat.add_sub_cancel] at hs
  obtain ⟨hlinked,hkept⟩ := hl.free_live hb hfirst hlast hs fresh
  refine ⟨⟨_,hlinked⟩,keepsOthers_of_blocks hl ?_⟩
  intro a ha hf hz hne
  exact hkept a ha hf hz fun he => hne (by rw [he])

/-- Raising an alignment twice is raising it once. -/
theorem alignmentOf_idem (h : Heap) (alignment : ℕ) :
    h.alignmentOf (h.alignmentOf alignment) = h.alignmentOf alignment := by
  simp only [Heap.alignmentOf]
  by_cases hlow : alignment < h.defaultAlignment
  · simp only [hlow,if_true,Nat.lt_irrefl,if_false]
  · simp only [hlow,if_false]

/-- Bytes moved into a new block disturb neither the list nor the blocks that
were there before. -/
theorem move_into_gap (hl : Linked h (l₁ ++ cur :: nxt :: l₂)) {h' : Heap} {c sz n ptr : ℕ}
    (hlinked : Linked h' (l₁ ++ cur :: (c - headerSize) :: nxt :: l₂))
    (hge : cur + headerSize + size h.mem cur + headerSize ≤ c) (hfit : c + sz ≤ nxt) (hn : n ≤ sz)
    (hkeep : KeepsOthers h h' none) :
    Linked { h' with mem := move h'.mem c ptr n } (l₁ ++ cur :: (c - headerSize) :: nxt :: l₂) ∧
    KeepsOthers h { h' with mem := move h'.mem c ptr n } none := by
  have hH : headerSize = 16 := rfl
  have hlinked' : Linked h' ((l₁ ++ [cur]) ++ (c - headerSize) :: nxt :: l₂) := by
    simpa using hlinked
  have hmem : ∀ x, x < c - headerSize + headerSize ∨ nxt ≤ x →
      move h'.mem c ptr n x = h'.mem x := fun x hx => move_out (by omega)
  obtain ⟨hl₁,hk₁⟩ := hlinked'.fill hmem
  refine ⟨by simpa using hl₁,?_⟩
  rintro p hp -
  have hkp := hkeep p hp (by simp)
  obtain ⟨blk,hb,hfirst,hlast,rfl⟩ := hkp.live
  rw [hlinked'.blocks_eq] at hb
  refine hkp.trans (hk₁ blk hb hfirst hlast ?_)
  -- the new block was not live before
  rintro rfl
  obtain ⟨old,hold,-,-,he⟩ := hp
  rw [hl.blocks_eq] at hold
  by_cases hoc : old = cur
  · omega
  · rcases apart_from_gap (chain_pairwise hl.chain) hold hoc with h1 | h1 <;> omega

/-- Bytes moved below the heap disturb nothing in it. -/
theorem move_below (hl : Linked h l) {ptr n : ℕ} (hlow : n ≤ h.heapStart) :
    Linked { h with mem := move h.mem 0 ptr n } l ∧
    KeepsOthers h { h with mem := move h.mem 0 ptr n } none := by
  have hH : headerSize = 16 := rfl
  have hout : ∀ x, h.heapStart ≤ x → move h.mem 0 ptr n x = h.mem x :=
    fun x hx => move_out (by omega)
  have hl₁ : Linked { h with mem := move h.mem 0 ptr n } l := by
    refine hl.of_headers fun a ha o ho => hout _ ?_
    have := hl.start_le ha
    omega
  refine ⟨hl₁,keepsOthers_of_blocks hl fun a ha hf hz _ =>
    kept_of_mem hl₁ ha hf hz fun x hx hu => hout _ ?_⟩
  have := hl.start_le ha
  omega

/-- Moving a block: its bytes go to a new block, or below the heap when there
is no gap, and the old block is freed. -/
theorem move_right (hl : Linked h l) {ptr sz alignment : ℕ} {zeroed : Bool} {fresh : Store}
    (hlive : Live h ptr) (ha : 0 < alignment) (hsz : size h.mem (ptr - headerSize) < sz)
    (hfree : Freeable ptr) (hwrap : NoWrap h.mem sz (h.alignmentOf alignment) l)
    (hgap : HasGap h.mem sz (h.alignmentOf alignment) l ∨
      size h.mem (ptr - headerSize) ≤ h.heapStart) :
    let r := h.allocate sz alignment zeroed
    let h₁ := { r.2 with mem := move r.2.mem r.1 ptr (size r.2.mem (ptr - headerSize)) }
    (∃ l', Linked (h₁.free ptr fresh) l') ∧ KeepsOthers h (h₁.free ptr fresh) (some ptr) := by
  have hH : headerSize = 16 := rfl
  rcases @allocate_spec _ _ _ _ zeroed hl (by omega) ha hwrap with
    ⟨hrun,hnone⟩ | ⟨l₁,cur,nxt,l₂,h',hsplit,hrun,hdvd,hpos,hge,hfit,hfields,hlinked,hsize,hkept⟩
  · -- the bytes are moved below the heap
    have hlow := hgap.resolve_left hnone
    simp only [hrun]
    obtain ⟨hl₁,hkeep⟩ := @move_below h l hl ptr (size h.mem (ptr - headerSize)) hlow
    obtain ⟨hl',hk'⟩ := free_linked hl₁ (hkeep ptr hlive (by simp)).live hfree fresh
    exact ⟨hl',(hkeep.weaken _).trans hk'⟩
  · simp only [hrun]
    have hkeep : KeepsOthers h h' none :=
      keepsOthers_of_blocks hl fun a ha hf hz _ => hkept a ha hf hz
    have hk := hkeep ptr hlive (by simp)
    rw [hsplit] at hl
    obtain ⟨hl₁,hkeep₁⟩ := @move_into_gap h l₁ l₂ cur nxt hl h' _ sz
      (size h'.mem (ptr - headerSize)) ptr hlinked hge hfit (by rw [hk.size]; omega) hkeep
    obtain ⟨hl',hk'⟩ := free_linked hl₁ (hkeep₁ ptr hlive (by simp)).live hfree fresh
    exact ⟨hl',(hkeep₁.weaken _).trans hk'⟩

/-- Changing the size where the block is. -/
theorem grow_right (hl : Linked h l) {ptr sz : ℕ} {zeroed : Bool} (hlive : Live h ptr)
    (hfit : sz ≤ size h.mem (ptr - headerSize) ∨ ptr + sz ≤ next h.mem (ptr - headerSize))
    (hshrink : zeroed = true → size h.mem (ptr - headerSize) ≤ sz + 2 ^ 31) :
    let sizeDiff := signed 32 ((sz : ℤ) - size h.mem (ptr - headerSize))
    let m := if zeroed = true ∧ sizeDiff > 0 then
        zero h.mem (ptr + size h.mem (ptr - headerSize)) sizeDiff.toNat
      else h.mem
    Linked { h with mem := setWord m (ptr - headerSize + 8) sz } l ∧
    KeepsOthers h { h with mem := setWord m (ptr - headerSize + 8) sz } (some ptr) := by
  have hH : headerSize = 16 := rfl
  obtain ⟨blk,hb,hfirst,hlast,rfl⟩ := hlive
  rw [hl.blocks_eq] at hb
  rw [Nat.add_sub_cancel] at *
  obtain ⟨l₁,nxt,l₂,rfl⟩ := hl.successor hb hlast
  obtain ⟨-,hpair,-⟩ := chain_split hl.chain
  have hbelow := hpair.below
  have hfor := hpair.forward
  have hend := hl.end_le (a := nxt) (by simp)
  have hsmall := hl.small
  have hroom : blk + headerSize + sz ≤ nxt := by omega
  have hdiff : zeroed = true → signed 32 ((sz : ℤ) - size h.mem blk) > 0 →
      signed 32 ((sz : ℤ) - size h.mem blk) = (sz : ℤ) - size h.mem blk := by
    intro hz hpos
    have hs := hshrink hz
    by_cases hgrow : (sz : ℤ) - size h.mem blk < 2 ^ 31
    · exact signed_of_range (w := 31) (by omega) hgrow
    · rw [signed_of_high (w := 31) (by omega) (by omega)] at hpos
      omega
  dsimp only
  have hmem : ∀ x, x < blk + headerSize ∨ nxt ≤ x →
      (if zeroed = true ∧ signed 32 ((sz : ℤ) - size h.mem blk) > 0 then
        zero h.mem (blk + headerSize + size h.mem blk) (signed 32 ((sz : ℤ) - size h.mem blk)).toNat
      else h.mem) x = h.mem x := by
    intro x hx
    split
    · next hz =>
      rw [hdiff hz.1 hz.2]
      have := hz.2
      rw [hdiff hz.1 hz.2] at this
      exact zero_out (by omega)
    · rfl
  obtain ⟨hl₁,hk₁⟩ := hl.fill hmem
  obtain ⟨hl₂,hk₂⟩ := hl₁.setSize hroom
  refine ⟨hl₂,?_⟩
  refine KeepsOthers.trans
    (keepsOthers_of_blocks hl fun a ha hf hz hne => hk₁ a ha hf hz fun he => hne (by rw [he]))
    (keepsOthers_of_blocks hl₁ fun a ha hf hz hne => hk₂ a ha hf hz fun he => hne (by rw [he]))

/-- What a live block can grow to ends where the next block starts. -/
theorem getMaxSize_lt (hl : Linked h l) {ptr sz : ℕ} (hlive : Live h ptr) :
    sz > h.getMaxSize ptr ↔ next h.mem (ptr - headerSize) < ptr + sz := by
  obtain ⟨blk,hb,hfirst,hlast,rfl⟩ := hlive
  rw [hl.blocks_eq] at hb
  obtain ⟨l₁,nxt,l₂,rfl⟩ := hl.successor hb hlast
  obtain ⟨-,hpair,-⟩ := chain_split hl.chain
  have hbelow := hpair.below
  have hend := hl.end_le (a := nxt) (by simp)
  have hsmall := hl.small
  rw [Heap.getMaxSize,Nat.add_sub_cancel,hpair.forward]
  omega

/-- A resize keeps the order and all other blocks. -/
theorem resize_right (hl : Linked h l) {ptr sz alignment : ℕ} {zeroed : Bool} {fresh : Store}
    (hv : HeapOp.Valid h (.resize ptr sz alignment zeroed fresh))
    (hs : HeapOp.Safe h (.resize ptr sz alignment zeroed fresh)) :
    (∃ l', Linked (h.resize ptr sz alignment zeroed fresh).2 l') ∧
    KeepsOthers h (h.resize ptr sz alignment zeroed fresh).2 (some ptr) := by
  obtain ⟨hsz,hpos,-,hptr⟩ := hv
  have hraise := @alignmentOf_pos h alignment hpos
  have hdef : (if alignment < h.defaultAlignment then h.defaultAlignment else alignment) =
      h.alignmentOf alignment := rfl
  simp only [HeapOp.Safe,hl.blocks_eq] at hs
  rw [Heap.resize]
  simp only [hdef]
  by_cases hnull : ptr = 0
  · rw [if_pos hnull] at hs ⊢
    obtain ⟨hl',-,hk⟩ := @allocate_right _ _ hl _ _ zeroed hraise
      (by rw [alignmentOf_idem]; exact hs)
    exact ⟨hl',hk.weaken _⟩
  · have hlive := hptr.resolve_left hnull
    rw [if_neg hnull] at hs ⊢
    by_cases hzero : sz = 0
    · rw [if_pos hzero] at hs ⊢
      exact free_linked hl hlive hs fresh
    · rw [if_neg hzero] at hs ⊢
      have hmax : sz > h.getMaxSize ptr ↔ next h.mem (ptr - headerSize) < ptr + sz :=
        getMaxSize_lt hl hlive
      by_cases hmove : MustMove h ptr sz alignment
      · have hcond : sz > size h.mem (ptr - headerSize) ∧
            (ptr % h.alignmentOf alignment ≠ 0 ∨ sz > h.getMaxSize ptr) := by
          rw [hmax]
          exact hmove
        obtain ⟨hfree,hwrap,hgap⟩ := hs.1 hmove
        rw [if_pos hcond]
        exact move_right hl hlive hraise hmove.1 hfree (by rw [alignmentOf_idem]; exact hwrap)
          (by rw [alignmentOf_idem]; exact hgap)
      · have hcond : ¬(sz > size h.mem (ptr - headerSize) ∧
            (ptr % h.alignmentOf alignment ≠ 0 ∨ sz > h.getMaxSize ptr)) := by
          rw [hmax]
          exact hmove
        rw [if_neg hcond]
        have hfit : sz ≤ size h.mem (ptr - headerSize) ∨
            ptr + sz ≤ next h.mem (ptr - headerSize) := by
          by_cases hle : sz ≤ size h.mem (ptr - headerSize)
          · exact .inl hle
          · refine .inr ?_
            by_contra hbig
            exact hmove ⟨by omega,.inr (by omega)⟩
        obtain ⟨hl',hk⟩ := grow_right hl hlive hfit (hs.2 hmove)
        exact ⟨⟨l,hl'⟩,hk⟩

/-- One valid and safe call is right and keeps the order. -/
theorem applyOp_right (hl : Linked h l) {op : HeapOp} (hv : op.Valid h) (hs : op.Safe h) :
    op.Right h ∧ ∃ l', Linked (applyOp h op).2 l' := by
  cases op with
  | allocate sz alignment zeroed =>
    simp only [HeapOp.Safe,hl.blocks_eq] at hs
    obtain ⟨hl',hres,hk⟩ := @allocate_right _ _ hl _ _ zeroed hv.2.1 hs
    refine ⟨⟨?_,hk⟩,hl'⟩
    rintro sz' alignment' zeroed' hop
    cases hop
    exact hres
  | resize ptr sz alignment zeroed fresh =>
    obtain ⟨hl',hk⟩ := resize_right hl hv hs
    exact ⟨⟨nofun,hk⟩,hl'⟩
  | free ptr fresh =>
    obtain ⟨hl',hk⟩ := free_linked hl hv hs fresh
    exact ⟨⟨nofun,hk⟩,hl'⟩

/-- A new heap is linked. -/
theorem linked_initializeHeap (m : Store) {start finish : ℕ}
    (defaultAlignment startName endName : ℕ) (hroom : start + 2 * headerSize ≤ finish)
    (hsmall : finish < 2 ^ 32) :
    Linked (Heap.initializeHeap m start finish defaultAlignment startName endName)
      [start,finish - headerSize] := by
  have hH : headerSize = 16 := rfl
  have hfirst : next (Heap.initializeHeap m start finish defaultAlignment startName endName).mem
      start = finish - headerSize := by
    simp only [next,Heap.initializeHeap]
    rw [word_setWord_other (by omega),word_setWord_other (by omega),word_setWord_other (by omega),
      word_setWord_other (by omega),word_setWord_other (by omega),word_setWord_other (by omega),
      word_setWord_other (by omega),word_setWord_same (by omega)]
  have hback : previous (Heap.initializeHeap m start finish defaultAlignment startName endName).mem
      start = start := by
    simp only [previous,Heap.initializeHeap]
    rw [word_setWord_other (by omega),word_setWord_other (by omega),word_setWord_other (by omega),
      word_setWord_other (by omega),word_setWord_other (by omega),word_setWord_other (by omega),
      word_setWord_same (by omega)]
  have hempty : size (Heap.initializeHeap m start finish defaultAlignment startName endName).mem
      start = 0 := by
    simp only [size,Heap.initializeHeap]
    rw [word_setWord_other (by omega),word_setWord_other (by omega),word_setWord_other (by omega),
      word_setWord_other (by omega),word_setWord_other (by omega),word_setWord_same (by omega)]
  have hlback : previous (Heap.initializeHeap m start finish defaultAlignment startName endName).mem
      (finish - headerSize) = start := by
    simp only [previous,Heap.initializeHeap]
    rw [word_setWord_other (by omega),word_setWord_other (by omega),word_setWord_other (by omega),
      word_setWord_same (by omega)]
  have hlast : next (Heap.initializeHeap m start finish defaultAlignment startName endName).mem
      (finish - headerSize) = finish - headerSize := by
    simp only [next,Heap.initializeHeap]
    rw [word_setWord_other (by omega),word_setWord_other (by omega),word_setWord_same (by omega)]
  have hlempty : size (Heap.initializeHeap m start finish defaultAlignment startName endName).mem
      (finish - headerSize) = 0 := by
    simp only [size,Heap.initializeHeap]
    rw [word_setWord_other (by omega),word_setWord_same (by omega)]
  refine ⟨?_,rfl,rfl,hback,hlast,hlempty,rfl,?_,hsmall⟩
  · simp only [List.isChain_cons_cons,List.isChain_singleton,and_true]
    exact ⟨hfirst,hlback,by rw [hempty]; omega⟩
  · show finish - headerSize + headerSize = finish
    omega

end

/-- Every history of valid and safe calls on a new heap keeps it in order and
every call does what it should. -/
theorem heap_right (m : Store) {start finish : ℕ} (defaultAlignment startName endName : ℕ)
    (hroom : start + 2 * headerSize ≤ finish) (hsmall : finish < 2 ^ 32) (ops : List HeapOp)
    (hs : SafeRun (Heap.initializeHeap m start finish defaultAlignment startName endName) ops) :
    HeapRight (Heap.initializeHeap m start finish defaultAlignment startName endName) ops := by
  have hgen : ∀ (ops : List HeapOp) {h : Heap} {l : List ℕ}, Linked h l → SafeRun h ops →
      HeapRight h ops := by
    intro ops
    induction ops with
    | nil => intro h l hl _; exact hl.inOrder
    | cons op ops ih =>
      intro h l hl hrun
      obtain ⟨hright,l',hl'⟩ := applyOp_right hl hrun.1 hrun.2.1
      exact ⟨hl.inOrder,hright,ih hl' hrun.2.2⟩
  exact hgen ops (linked_initializeHeap m defaultAlignment startName endName hroom hsmall) hs

/-- A heap of one page. -/
def pageHeap : Heap := Heap.initializeHeap (fun _ => 0) 4096 8192 4 0 0

/-- Two blocks, the first of which is freed again. -/
theorem heap_right_page :
    HeapRight pageHeap [.allocate 8 16 true,.allocate 20 1 false,.free 4128 fun _ => 7] := by
  refine heap_right _ 4 0 0 (by decide) (by decide) _ ?_
  refine ⟨?_,?_,?_,?_,?_,?_,trivial⟩
  · exact ⟨by decide,by decide,by decide⟩
  · show NoWrap _ _ _ _
    decide
  · exact ⟨by decide,by decide,by decide⟩
  · show NoWrap _ _ _ _
    decide
  · show Live _ _
    decide
  · show _ < 2 ^ 32
    decide

/-- A small heap at a low address. -/
def lowHeap : Heap := Heap.initializeHeap (fun _ => 0) 16 400 4 0 0

/-- The low heap with one block in it. -/
def lowHeapUsed : Heap := (lowHeap.allocate 100 4 false).2

/-- A block that must grow finds no gap and is moved to address zero, over the
first header: nothing wraps, but the list is broken. -/
theorem failed_move_breaks_list :
    HeapOp.Valid lowHeap (.allocate 100 4 false) ∧ NoWrap lowHeap.mem 100 4 lowHeap.blocks ∧
    HeapOp.Valid lowHeapUsed (.resize 48 1000 4 false fun _ => 0) ∧
    NoWrap lowHeapUsed.mem 1000 4 lowHeapUsed.blocks ∧
    ¬HeapRight lowHeap [.allocate 100 4 false,.resize 48 1000 4 false fun _ => 0] := by
  refine ⟨⟨by decide,by decide,by decide⟩,by decide,⟨by decide,by decide,by decide,.inr (by decide)⟩,
    by decide,?_⟩
  rintro ⟨-,-,-,-,horder⟩
  have hl := horder.linked
  have hfirst := List.mem_of_head? hl.head
  obtain ⟨l₁,nxt,l₂,hsplit⟩ := hl.successor hfirst (by decide)
  have hc := hl.chain
  rw [hsplit] at hc
  obtain ⟨-,hpair,-⟩ := chain_split hc
  have hbelow := hpair.below
  have hnext : nxt = 0 := hpair.forward.symm.trans (by decide)
  rw [hnext] at hbelow
  exact absurd hbelow (by decide)

end WootOs.KernelHeap
