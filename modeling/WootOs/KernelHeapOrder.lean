import WootOs.KernelHeap

/-!
# One operation on an ordered heap

Inserting a block into a gap, taking one out and changing one in its place
keep the list in order, and each changes bytes between two neighbours only.
The bytes of every other block stay what they are.
-/

namespace WootOs.KernelHeap

open ByteStore KernelMemory MachineInt

section

variable {h : Heap} {m m' : Store} {l l₁ l₂ : List ℕ} {a b cur nxt prv z : ℕ}

/-- Headers lie at least their size apart. -/
theorem chain_length : ∀ {l : List ℕ} {a : ℕ}, (a :: l).IsChain (Neighbours m) →
    (a :: l).getLast? = some z → a + headerSize * l.length ≤ z := by
  intro l
  induction l with
  | nil =>
    intro a _ hz
    simp only [List.getLast?_singleton,Option.some.injEq] at hz
    simp [hz]
  | cons b l ih =>
    intro a hc hz
    rw [List.isChain_cons_cons] at hc
    have hrest := ih hc.2 (by simpa [List.getLast?_cons_cons] using hz)
    have hbelow := hc.1.below
    rw [List.length_cons,Nat.mul_succ]
    omega

/-- With enough fuel the walk meets the blocks of the chain. -/
theorem blocksFrom_eq : ∀ {l : List ℕ} {a fuel : ℕ}, (a :: l).IsChain (Neighbours h.mem) →
    (a :: l).getLast? = some h.lastBlock → l.length ≤ fuel → h.blocksFrom fuel a = a :: l := by
  intro l
  induction l with
  | nil =>
    intro a fuel _ hz _
    simp only [List.getLast?_singleton,Option.some.injEq] at hz
    cases fuel with
    | zero => rfl
    | succ fuel => rw [Heap.blocksFrom,if_pos hz]
  | cons b l ih =>
    intro a fuel hc hz hfuel
    have hlen := chain_length hc hz
    have hne : a ≠ h.lastBlock := by
      simp only [headerSize,List.length_cons] at hlen
      omega
    rw [List.isChain_cons_cons] at hc
    cases fuel with
    | zero => simp at hfuel
    | succ fuel =>
      rw [Heap.blocksFrom,if_neg hne,hc.1.forward,ih hc.2
        (by simpa [List.getLast?_cons_cons] using hz) (by simpa using hfuel)]

/-- The blocks of a linked heap are those the walk meets. -/
theorem Linked.blocks_eq (hl : Linked h l) : h.blocks = l := by
  have hH : headerSize = 16 := rfl
  cases l with
  | nil =>
    have := hl.head
    simp at this
  | cons a l =>
    have hhead := hl.head
    simp only [List.head?_cons,Option.some.injEq] at hhead
    have hlen := chain_length hl.chain hl.last
    have hfinish := hl.finish
    rw [Heap.blocks,←hhead]
    apply blocksFrom_eq hl.chain hl.last
    rw [hH] at hlen
    omega

theorem Linked.wellFormed (hl : Linked h l) : WellFormed h := by
  rw [WellFormed,hl.blocks_eq]
  exact hl

/-- A block is the last one or has its end before it. -/
theorem Linked.before_last (hl : Linked h l) (ha : a ∈ l) :
    a = h.lastBlock ∨ a + headerSize + size h.mem a ≤ h.lastBlock := by
  have hlast : h.lastBlock ∈ l := List.mem_of_getLast? hl.last
  by_cases he : a = h.lastBlock
  · exact .inl he
  · obtain ⟨l',rfl⟩ : ∃ l', l = l' ++ [h.lastBlock] :=
      ⟨l.dropLast,(List.dropLast_append_getLast? _ hl.last).symm⟩
    have hin : a ∈ l' := by simpa [he] using ha
    exact .inr ((List.pairwise_append.mp (chain_pairwise hl.chain)).2.2 a hin _ (by simp))

/-- No block starts before the heap. -/
theorem Linked.start_le (hl : Linked h l) (ha : a ∈ l) : h.heapStart ≤ a := by
  have hhead := hl.head
  have hstart := hl.start
  cases l with
  | nil => simp at ha
  | cons b l =>
    simp only [List.head?_cons,Option.some.injEq] at hhead
    rcases List.mem_cons.mp ha with rfl | hin
    · omega
    · have := (List.pairwise_cons.mp (chain_pairwise hl.chain)).1 a hin
      omega

/-- A header and its data end inside the heap. -/
theorem Linked.end_le (hl : Linked h l) (ha : a ∈ l) :
    a + headerSize + size h.mem a ≤ h.heapEnd := by
  have hfinish := hl.finish
  rcases hl.before_last ha with rfl | hle
  · rw [hl.empty]
    omega
  · omega

/-- A block other than the last has a successor. -/
theorem Linked.successor (hl : Linked h l) (ha : a ∈ l) (hne : a ≠ h.lastBlock) :
    ∃ l₁ nxt l₂, l = l₁ ++ a :: nxt :: l₂ := by
  obtain ⟨l₁,l₂,rfl⟩ := List.append_of_mem ha
  cases l₂ with
  | nil =>
    have := hl.last
    simp only [List.getLast?_append,List.getLast?_singleton,Option.some_or,Option.some.injEq] at this
    exact absurd this hne
  | cons nxt l₂ => exact ⟨l₁,nxt,l₂,rfl⟩

/-- A block other than the first and the last has two neighbours. -/
theorem Linked.between (hl : Linked h l) (ha : a ∈ l) (hfirst : a ≠ h.firstBlock)
    (hlast : a ≠ h.lastBlock) : ∃ l₁ prv nxt l₂, l = l₁ ++ prv :: a :: nxt :: l₂ := by
  obtain ⟨l₁,nxt,l₂,rfl⟩ := hl.successor ha hlast
  rcases List.eq_nil_or_concat l₁ with rfl | ⟨l₁,prv,rfl⟩
  · have := hl.head
    simp only [List.nil_append,List.head?_cons,Option.some.injEq] at this
    exact absurd this hfirst
  · exact ⟨l₁,prv,nxt,l₂,by simp⟩

/-- A chain around two neighbours. -/
theorem chain_split (hc : (l₁ ++ cur :: nxt :: l₂).IsChain (Neighbours m)) :
    (l₁ ++ [cur]).IsChain (Neighbours m) ∧ Neighbours m cur nxt ∧
    (nxt :: l₂).IsChain (Neighbours m) := by
  rw [List.isChain_append_cons_cons] at hc
  exact hc

/-- Leaving out a block between two others. -/
theorem sublist_between (l₁ l₂ : List ℕ) (a b c : ℕ) :
    (l₁ ++ a :: c :: l₂).Sublist (l₁ ++ a :: b :: c :: l₂) :=
  (List.Sublist.refl l₁).append (((List.Sublist.refl (c :: l₂)).cons b).cons_cons a)

/-- Every other block lies before the first or starts with the second of two
neighbours. -/
theorem apart_from_gap
    (hp : (l₁ ++ cur :: nxt :: l₂).Pairwise fun a b => a + headerSize + size m a ≤ b)
    (ha : a ∈ l₁ ++ cur :: nxt :: l₂) (hne : a ≠ cur) :
    a + headerSize + size m a ≤ cur ∨ nxt ≤ a := by
  rw [List.pairwise_append] at hp
  rcases List.mem_append.mp ha with hin | hin
  · exact .inl (hp.2.2 a hin cur (by simp))
  · rcases List.mem_cons.mp hin with rfl | hin
    · exact absurd rfl hne
    · rcases List.mem_cons.mp hin with rfl | hin
      · exact .inr (le_refl _)
      · have := (List.pairwise_cons.mp (List.pairwise_cons.mp hp.2.1).2).1 a hin
        exact .inr (by omega)

/-- Bytes outside all headers may change without disturbing the list. -/
theorem Linked.of_headers (hl : Linked h l)
    (hmem : ∀ a ∈ l, ∀ o < headerSize, m' (a + o) = h.mem (a + o)) :
    Linked { h with mem := m' } l := by
  have hfields : ∀ a ∈ l, next m' a = next h.mem a ∧ previous m' a = previous h.mem a ∧
      size m' a = size h.mem a := fun a ha => fields_congr (hmem a ha)
  have hf := hfields _ (List.mem_of_head? hl.head)
  have hz := hfields _ (List.mem_of_getLast? hl.last)
  refine ⟨?_,hl.head,hl.last,hf.2.1.trans hl.first,hz.1.trans hl.final,hz.2.2.trans hl.empty,
    hl.start,hl.finish,hl.small⟩
  refine hl.chain.imp_of_mem_imp ?_
  intro a b ha hb hab
  exact ⟨(hfields a ha).1.trans hab.forward,(hfields b hb).2.1.trans hab.backward,
    by rw [(hfields a ha).2.2]; exact hab.below⟩

end

/-- A pointer to a live block that stays live with its size and contents. -/
structure Kept (h h' : Heap) (ptr : ℕ) : Prop where
  /-- It is live afterwards. -/
  live : Live h' ptr
  /-- Its size is the same. -/
  size : size h'.mem (ptr - headerSize) = size h.mem (ptr - headerSize)
  /-- Its contents are the same. -/
  contents : ∀ x, ptr ≤ x → x < ptr + KernelHeap.size h.mem (ptr - headerSize) → h'.mem x = h.mem x

theorem Kept.trans {h h' h'' : Heap} {ptr : ℕ} (h₁ : Kept h h' ptr) (h₂ : Kept h' h'' ptr) :
    Kept h h'' ptr := by
  refine ⟨h₂.live,h₂.size.trans h₁.size,?_⟩
  intro x hl hu
  rw [h₂.contents x hl (by rwa [h₁.size]),h₁.contents x hl hu]

section

variable {h : Heap} {m m' : Store} {l l' l₁ l₂ : List ℕ} {a cur nxt : ℕ}

/-- A block of both lists whose header and data did not change is kept. -/
theorem kept_of_mem (hl' : Linked { h with mem := m' } l') (ha : a ∈ l')
    (hfirst : a ≠ h.firstBlock) (hlast : a ≠ h.lastBlock)
    (hmem : ∀ x, a + 8 ≤ x → x < a + headerSize + size h.mem a → m' x = h.mem x) :
    Kept h { h with mem := m' } (a + headerSize) := by
  have hH : headerSize = 16 := rfl
  have hsize : size m' a = size h.mem a :=
    word_congr fun i hi => hmem _ (by omega) (by omega)
  refine ⟨⟨a,by rw [hl'.blocks_eq]; exact ha,hfirst,hlast,rfl⟩,?_,?_⟩
  · rw [Nat.add_sub_cancel]
    exact hsize
  · intro x hx hu
    rw [Nat.add_sub_cancel] at hu
    exact hmem x (by omega) hu

/-- What inserting a block writes: its header and data, and one link of each
neighbour. -/
theorem insertBlock_out {newBlk sz x : ℕ} {zeroed : Bool} (hnext : next m cur = nxt)
    (hcur : x < cur ∨ cur + 4 ≤ x) (hnxt : x < nxt + 4 ∨ nxt + 8 ≤ x)
    (hnew : x < newBlk ∨ newBlk + headerSize + sz ≤ x) (happart : cur + headerSize ≤ newBlk)
    (hfit : newBlk + headerSize < 2 ^ 32) (hsmall : nxt < 2 ^ 32) : Heap.insertBlock m cur newBlk sz zeroed x = m x := by
  have hH : headerSize = 16 := rfl
  have hlink : next (setWord (setWord (setWord m newBlk (next m cur)) cur newBlk) (newBlk + 4) cur)
      newBlk = nxt := by
    rw [next,word_congr (t := setWord m newBlk (next m cur)) (q := newBlk) (fun i hi => ?_),
      word_setWord_same (by rwa [hnext]),hnext]
    rw [setWord_out (by omega),setWord_out (by omega)]
  have hwords : setWord (setWord (setWord (setWord (setWord m newBlk (next m cur)) cur newBlk)
      (newBlk + 4) cur) (nxt + 4) newBlk) (newBlk + 8) sz x = m x := by
    rw [setWord_out (by omega),setWord_out (by omega),setWord_out (by omega),setWord_out (by omega),
      setWord_out (by omega)]
  rw [Heap.insertBlock]
  simp only [hlink,Nat.mod_eq_of_lt hfit]
  split
  · rw [zero_out (by omega)]
    exact hwords
  · exact hwords

/-- The links and the size after a block was inserted. -/
theorem insertBlock_links {newBlk sz : ℕ} {zeroed : Bool} (hnext : next m cur = nxt)
    (happart : cur + headerSize ≤ newBlk) (hfit : newBlk + headerSize + sz ≤ nxt)
    (hsmall : nxt + headerSize < 2 ^ 32) :
    next (Heap.insertBlock m cur newBlk sz zeroed) cur = newBlk ∧
    previous (Heap.insertBlock m cur newBlk sz zeroed) newBlk = cur ∧
    next (Heap.insertBlock m cur newBlk sz zeroed) newBlk = nxt ∧
    previous (Heap.insertBlock m cur newBlk sz zeroed) nxt = newBlk ∧
    size (Heap.insertBlock m cur newBlk sz zeroed) newBlk = sz := by
  have hH : headerSize = 16 := rfl
  have hlink : next (setWord (setWord (setWord m newBlk (next m cur)) cur newBlk) (newBlk + 4) cur)
      newBlk = nxt := by
    rw [next,word_congr (t := setWord m newBlk (next m cur)) (q := newBlk) (fun i hi => ?_),
      word_setWord_same (by omega),hnext]
    rw [setWord_out (by omega),setWord_out (by omega)]
  -- outside the data, filling changes nothing
  have hzero : ∀ pos, pos + 4 ≤ newBlk + 16 ∨ nxt ≤ pos →
      word (Heap.insertBlock m cur newBlk sz zeroed) 4 pos =
        word (setWord (setWord (setWord (setWord (setWord m newBlk (next m cur)) cur newBlk)
          (newBlk + 4) cur) (nxt + 4) newBlk) (newBlk + 8) sz) 4 pos := by
    intro pos hpos
    apply word_congr
    intro i hi
    rw [Heap.insertBlock]
    simp only [hlink,headerSize]
    split
    · exact zero_out (by omega)
    · rfl
  refine ⟨?_,?_,?_,?_,?_⟩
  · rw [next,hzero cur (by omega),word_congr (t := setWord (setWord m newBlk (next m cur)) cur newBlk)
      (q := cur) (fun i hi => ?_),word_setWord_same (by omega)]
    rw [setWord_out (by omega),setWord_out (by omega),setWord_out (by omega)]
  · rw [previous,hzero (newBlk + 4) (by omega),word_congr (t := setWord (setWord (setWord m newBlk
      (next m cur)) cur newBlk) (newBlk + 4) cur) (q := newBlk + 4) (fun i hi => ?_),
      word_setWord_same (by omega)]
    rw [setWord_out (by omega),setWord_out (by omega)]
  · rw [next,hzero newBlk (by omega),word_congr (t := setWord m newBlk (next m cur)) (q := newBlk)
      (fun i hi => ?_),word_setWord_same (by omega),hnext]
    rw [setWord_out (by omega),setWord_out (by omega),setWord_out (by omega),setWord_out (by omega)]
  · rw [previous,hzero (nxt + 4) (by omega),word_congr (t := setWord (setWord (setWord (setWord m newBlk
      (next m cur)) cur newBlk) (newBlk + 4) cur) (nxt + 4) newBlk) (q := nxt + 4) (fun i hi => ?_),
      word_setWord_same (by omega)]
    rw [setWord_out (by omega)]
  · rw [size,hzero (newBlk + 8) (by omega),word_setWord_same (by omega)]

/-- A chain whose middle part is replaced: the outer parts look neither at the
forward link of the block before it nor at the backward link of the one after
it. -/
theorem Linked.replace {mid mid' : List ℕ} (hl : Linked h (l₁ ++ cur :: (mid ++ nxt :: l₂)))
    (hmid : (cur :: (mid' ++ [nxt])).IsChain (Neighbours m'))
    (hmem : ∀ x, x < cur ∨ (cur + 4 ≤ x ∧ x < cur + 8) ∨ (nxt ≤ x ∧ x < nxt + 4) ∨ nxt + 8 ≤ x →
      m' x = h.mem x) :
    Linked { h with mem := m' } (l₁ ++ cur :: (mid' ++ nxt :: l₂)) := by
  have hH : headerSize = 16 := rfl
  obtain ⟨hleft,hrest⟩ := List.isChain_split.mp hl.chain
  obtain ⟨hinner,hright⟩ := List.isChain_split.mp
    (show ((cur :: mid) ++ nxt :: l₂).IsChain (Neighbours h.mem) from hrest)
  have hgap : cur + headerSize ≤ nxt := by
    have := (List.pairwise_cons.mp (chain_pairwise hmid)).1 nxt (by simp)
    omega
  have hleft' := chain_below hleft fun x hx => hmem x (by omega)
  have hright' := chain_above hright fun x hx => hmem x (by omega)
  have hfirst : h.firstBlock = cur ∨ h.firstBlock + headerSize ≤ cur := by
    have hhead := hl.head
    cases l₁ with
    | nil => exact .inl (by simpa using hhead.symm)
    | cons b l₁ =>
      simp only [List.cons_append,List.head?_cons,Option.some.injEq] at hhead
      have := (List.pairwise_cons.mp (chain_pairwise hleft)).1 cur (by simp)
      exact .inr (by omega)
  have hlast : h.lastBlock = nxt ∨ nxt + headerSize ≤ h.lastBlock := by
    have hmemlast : h.lastBlock ∈ nxt :: l₂ := by
      have := hl.last
      rw [show l₁ ++ cur :: (mid ++ nxt :: l₂) = (l₁ ++ cur :: mid) ++ nxt :: l₂ by simp,
        List.getLast?_append_cons] at this
      exact List.mem_of_getLast? this
    rcases List.mem_cons.mp hmemlast with he | hin
    · exact .inl he
    · have := (List.pairwise_cons.mp (chain_pairwise hright)).1 _ hin
      exact .inr (by omega)
  refine ⟨?_,?_,?_,?_,?_,?_,hl.start,hl.finish,hl.small⟩
  · refine List.isChain_split.mpr ⟨hleft',?_⟩
    have hjoin : ((cur :: mid') ++ nxt :: l₂).IsChain (Neighbours m') :=
      List.isChain_split.mpr ⟨hmid,hright'⟩
    exact hjoin
  · have := hl.head
    cases l₁ with
    | nil => simpa using this
    | cons b l₁ => simpa using this
  · have := hl.last
    simp only [List.getLast?_append,List.getLast?_cons] at this ⊢
    simpa using this
  · rw [previous,word_congr (t := h.mem) (q := h.firstBlock + 4) fun i hi => hmem _ (by omega)]
    exact hl.first
  · rw [next,word_congr (t := h.mem) (q := h.lastBlock) fun i hi => hmem _ (by omega)]
    exact hl.final
  · rw [size,word_congr (t := h.mem) (q := h.lastBlock + 8) fun i hi => hmem _ (by omega)]
    exact hl.empty

/-- Inserting a block into a gap keeps the order, and keeps all blocks. -/
theorem Linked.insert (hl : Linked h (l₁ ++ cur :: nxt :: l₂)) {newBlk sz : ℕ} {zeroed : Bool}
    (happart : cur + headerSize + size h.mem cur ≤ newBlk)
    (hfit : newBlk + headerSize + sz ≤ nxt) :
    Linked { h with mem := Heap.insertBlock h.mem cur newBlk sz zeroed }
      (l₁ ++ cur :: newBlk :: nxt :: l₂) ∧
    size (Heap.insertBlock h.mem cur newBlk sz zeroed) newBlk = sz ∧
    ∀ a ∈ l₁ ++ cur :: nxt :: l₂, a ≠ h.firstBlock → a ≠ h.lastBlock →
      Kept h { h with mem := Heap.insertBlock h.mem cur newBlk sz zeroed } (a + headerSize) := by
  have hH : headerSize = 16 := rfl
  obtain ⟨-,hpair,-⟩ := chain_split hl.chain
  have hnxt := hl.end_le (a := nxt) (by simp)
  have hsmall := hl.small
  obtain ⟨h1,h2,h3,h4,h5⟩ := @insertBlock_links h.mem cur nxt newBlk sz zeroed hpair.forward
    (by omega : cur + headerSize ≤ newBlk) hfit (by omega)
  have hout : ∀ x, x < cur ∨ cur + 4 ≤ x → x < nxt + 4 ∨ nxt + 8 ≤ x →
      x < newBlk ∨ newBlk + headerSize + sz ≤ x →
      Heap.insertBlock h.mem cur newBlk sz zeroed x = h.mem x := fun x hx1 hx2 hx3 =>
    insertBlock_out hpair.forward hx1 hx2 hx3 (by omega) (by omega) (by omega)
  have hsize : size (Heap.insertBlock h.mem cur newBlk sz zeroed) cur = size h.mem cur :=
    word_congr fun i hi => by
      exact hout _ (by omega) (by omega) (by omega)
  have hlinked : Linked { h with mem := Heap.insertBlock h.mem cur newBlk sz zeroed }
      (l₁ ++ cur :: newBlk :: nxt :: l₂) := by
    refine @Linked.replace h _ l₁ l₂ cur nxt [] [newBlk] hl ?_ ?_
    · simp only [List.singleton_append,List.isChain_cons_cons,List.isChain_singleton,and_true]
      exact ⟨⟨h1,h2,by rw [hsize]; exact happart⟩,h3,h4,by rw [h5]; exact hfit⟩
    · intro x hx
      exact hout x (by omega) (by omega) (by omega)
  refine ⟨hlinked,h5,?_⟩
  intro a ha hfirst hlast
  refine kept_of_mem hlinked ?_ hfirst hlast ?_
  · exact (sublist_between l₁ l₂ cur newBlk nxt).subset ha
  · intro x hx hu
    by_cases hcur : a = cur
    · subst hcur
      exact hout x (by omega) (by omega) (by omega)
    · rcases apart_from_gap (chain_pairwise hl.chain) ha hcur with hlow | hhigh
      · exact hout x (by omega) (by omega) (by omega)
      · exact hout x (by omega) (by omega) (by omega)

end

/-- The end of the data of the block before a given one. -/
def prevEnd (h : Heap) (ptr : ℕ) : ℕ :=
  let prev := previous h.mem (ptr - headerSize)
  prev + headerSize + size h.mem prev

section

variable {h : Heap} {m : Store} {l₁ l₂ : List ℕ} {blk prv nxt : ℕ}

/-- Rounding up to a page, when nothing wraps. -/
theorem align_page {val : ℕ} (h : val + (pageSize - 1) < 2 ^ 32) :
    align val pageSize = pageSize * ((val + (pageSize - 1)) / pageSize) := by
  rw [align,Nat.mod_eq_of_lt h]
  simp only [pageSize] at *
  omega

/-- Memory after a block between two others was taken out. -/
def unlinked (m : Store) (prv blk nxt : ℕ) (fresh : Store) : Store := fun a =>
  if align ((prv + headerSize + size m prv) % 2 ^ 32) pageSize ≤ a ∧
      a < pageSize * ((blk + headerSize + size m blk) % 2 ^ 32 / pageSize) then fresh a
    else setWord (setWord m prv nxt) (nxt + 4) prv a

/-- Freeing takes the block out from between its neighbours. -/
theorem free_eq (hprv : Neighbours h.mem prv blk) (hnxt : Neighbours h.mem blk nxt)
    (fresh : Store) :
    h.free (blk + headerSize) fresh = { h with mem := unlinked h.mem prv blk nxt fresh } := by
  have hH : headerSize = 16 := rfl
  have hb := hprv.below
  have hn : next (setWord h.mem prv nxt) blk = nxt := by
    rw [next,word_congr (t := h.mem) (q := blk) fun i hi => ?_]
    · exact hnxt.forward
    · exact setWord_out (by omega)
  have hp : previous (setWord h.mem prv nxt) blk = prv := by
    rw [previous,word_congr (t := h.mem) (q := blk + 4) fun i hi => ?_]
    · exact hprv.backward
    · exact setWord_out (by omega)
  simp only [Heap.free,Nat.add_sub_cancel,hprv.backward,hnxt.forward,hn,hp]
  rfl

/-- The pages given back lie between the neighbours. -/
theorem unlinked_pages (hprv : Neighbours m prv blk) (hnxt : Neighbours m blk nxt)
    (hsmall : nxt < 2 ^ 32) (hwrap : prv + headerSize + size m prv + (pageSize - 1) < 2 ^ 32) :
    prv + headerSize + size m prv ≤
      align ((prv + headerSize + size m prv) % 2 ^ 32) pageSize ∧
    pageSize * ((blk + headerSize + size m blk) % 2 ^ 32 / pageSize) ≤ nxt := by
  have hb1 := hprv.below
  have hb2 := hnxt.below
  constructor
  · rw [Nat.mod_eq_of_lt (by omega),align_page hwrap]
    simp only [pageSize] at *
    omega
  · rw [Nat.mod_eq_of_lt (by omega)]
    have := Nat.mul_div_le (blk + headerSize + size m blk) pageSize
    omega

/-- Outside those pages there are two links changed. -/
theorem unlinked_eq (hprv : Neighbours m prv blk) (hnxt : Neighbours m blk nxt)
    (hsmall : nxt < 2 ^ 32) (hwrap : prv + headerSize + size m prv + (pageSize - 1) < 2 ^ 32)
    (fresh : Store) {x : ℕ} (hx : x < prv + headerSize + size m prv ∨ nxt ≤ x) :
    unlinked m prv blk nxt fresh x = setWord (setWord m prv nxt) (nxt + 4) prv x := by
  obtain ⟨hlow,hhigh⟩ := unlinked_pages hprv hnxt hsmall hwrap
  rw [unlinked,if_neg (by omega)]

/-- Taking a block out keeps the order, and keeps all other blocks. -/
theorem Linked.free (hl : Linked h (l₁ ++ prv :: blk :: nxt :: l₂)) (fresh : Store)
    (hwrap : prevEnd h (blk + headerSize) + (pageSize - 1) < 2 ^ 32) :
    Linked (h.free (blk + headerSize) fresh) (l₁ ++ prv :: nxt :: l₂) ∧
    ∀ a ∈ l₁ ++ prv :: nxt :: l₂, a ≠ h.firstBlock → a ≠ h.lastBlock →
      Kept h (h.free (blk + headerSize) fresh) (a + headerSize) := by
  have hH : headerSize = 16 := rfl
  obtain ⟨-,hprv,hrest⟩ := chain_split hl.chain
  have hnxt := (List.isChain_cons_cons.mp hrest).1
  have hend := hl.end_le (a := nxt) (by simp)
  have hsmall := hl.small
  have hb1 := hprv.below
  have hb2 := hnxt.below
  rw [prevEnd,Nat.add_sub_cancel,hprv.backward] at hwrap
  have hsmall' : nxt < 2 ^ 32 := by omega
  have hmem := fun x => unlinked_eq (x := x) hprv hnxt hsmall' hwrap fresh
  have hout : ∀ x, x < prv ∨ (prv + 4 ≤ x ∧ x < prv + headerSize + size h.mem prv) ∨
      (nxt ≤ x ∧ x < nxt + 4) ∨ nxt + 8 ≤ x → unlinked h.mem prv blk nxt fresh x = h.mem x := by
    intro x hx
    rw [hmem x (by omega)]
    rw [setWord_out (by omega),setWord_out (by omega)]
  have hlinked : Linked { h with mem := unlinked h.mem prv blk nxt fresh }
      (l₁ ++ prv :: nxt :: l₂) := by
    refine @Linked.replace h _ l₁ l₂ prv nxt [blk] [] hl ?_ ?_
    · simp only [List.nil_append,List.isChain_cons_cons,List.isChain_singleton,and_true]
      refine ⟨?_,?_,?_⟩
      · rw [next,word_congr (t := setWord h.mem prv nxt) (q := prv) fun i hi => ?_]
        · exact word_setWord_same hsmall'
        · rw [hmem _ (by omega),setWord_out (by omega)]
      · rw [previous,word_congr (t := setWord (setWord h.mem prv nxt) (nxt + 4) prv) (q := nxt + 4)
          fun i hi => hmem _ (by omega)]
        exact word_setWord_same (by omega)
      · rw [size,word_congr (t := h.mem) (q := prv + 8) fun i hi => hout _ (by omega)]
        show prv + 16 + size h.mem prv ≤ nxt
        omega
    · intro x hx
      exact hout x (by simp only [headerSize]; omega)
  rw [free_eq hprv hnxt]
  refine ⟨hlinked,?_⟩
  intro a ha hfirst hlast
  refine kept_of_mem hlinked ha hfirst hlast ?_
  intro x hx hu
  by_cases hcur : a = prv
  · subst hcur
    exact hout x (by omega)
  · have hp := (chain_pairwise hl.chain).sublist (sublist_between l₁ l₂ prv blk nxt)
    rcases apart_from_gap hp ha hcur with hlow | hhigh
    · exact hout x (by omega)
    · exact hout x (by omega)

end

end WootOs.KernelHeap
