import WootOs.KernelHeapResize

/-!
# Allocation and sums that wrap

The fit test of an allocation compares sums of 32 bits. A rounding that wraps
gives address zero, which is below every block, and a size that wraps past the
end of the address space ends below the next block as well. Such a gap is
taken although it is too small. The search is right exactly when it comes to a
large enough gap before any gap of this kind.
-/

namespace WootOs.KernelHeap

open ByteStore KernelMemory MachineInt

/-- A gap that passes the test although an address wraps: the rounding gives
zero, or the end of the data does. -/
def Deceptive (m : Store) (sz alignment cur nxt : ℕ) : Prop :=
  (2 ^ 32 ≤ cur + headerSize + size m cur + headerSize + (alignment - 1) ∧ sz ≤ nxt) ∨
    (cur + headerSize + size m cur + headerSize + (alignment - 1) < 2 ^ 32 ∧
      candidate m alignment cur ≤ nxt ∧ 2 ^ 32 ≤ candidate m alignment cur + sz)

instance (m : Store) (sz alignment cur nxt : ℕ) : Decidable (Deceptive m sz alignment cur nxt) :=
  inferInstanceAs (Decidable (_ ∨ _))

/-- No gap up to the first one that is large enough passes the test by a wrap. -/
def HonestGaps (m : Store) (sz alignment : ℕ) : List ℕ → Prop
  | cur :: nxt :: rest =>
    ¬Deceptive m sz alignment cur nxt ∧
    (candidate m alignment cur + sz ≤ nxt ∨ HonestGaps m sz alignment (nxt :: rest))
  | _ => True

/-- The result of an allocation: null and nothing has changed, or a block whose
header and data lie between two neighbours. -/
def InGap (h : Heap) (sz : ℕ) (r : ℕ × Heap) : Prop :=
  r = (0,h) ∨ ∃ l₁ cur nxt l₂, h.blocks = l₁ ++ cur :: nxt :: l₂ ∧
    cur + headerSize + size h.mem cur + headerSize ≤ r.1 ∧ r.1 + sz ≤ nxt

section

variable {h : Heap} {m : Store} {l l₁ l₂ rest : List ℕ} {cur nxt sz alignment : ℕ} {zeroed : Bool}

/-- A rounding that wraps gives zero. -/
theorem align_wrapped {val : ℕ} (hval : val < 2 ^ 32) (ha : 0 < alignment)
    (hsmall : alignment < 2 ^ 32) (hwrap : 2 ^ 32 ≤ val + (alignment - 1)) :
    align val alignment = 0 := by
  have hrest : (val + (alignment - 1)) % 2 ^ 32 = val + (alignment - 1) - 2 ^ 32 := by
    rw [Nat.mod_eq_sub_mod hwrap,Nat.mod_eq_of_lt (by omega)]
  rw [align,hrest,Nat.div_eq_of_lt (by omega),Nat.mul_zero,Nat.zero_mod]

/-- A block put at the wrapped place below address zero becomes the one before
the next block. -/
theorem insertBlock_wrapped (hnext : next m cur = nxt) (hcur : cur + headerSize ≤ nxt)
    (hnxt : nxt + headerSize < 2 ^ 32) (hsz : sz ≤ nxt) :
    previous (Heap.insertBlock m cur (2 ^ 32 - headerSize) sz zeroed) nxt = 2 ^ 32 - headerSize := by
  have hH : headerSize = 16 := rfl
  have hlink : next (setWord (setWord (setWord m (2 ^ 32 - headerSize) (next m cur)) cur
      (2 ^ 32 - headerSize)) (2 ^ 32 - headerSize + 4) cur) (2 ^ 32 - headerSize) = nxt := by
    rw [next,word_setWord_other (by omega),word_setWord_other (by omega),
      word_setWord_same (by omega),hnext]
  have hwords : previous (setWord (setWord (setWord (setWord (setWord m (2 ^ 32 - headerSize)
      (next m cur)) cur (2 ^ 32 - headerSize)) (2 ^ 32 - headerSize + 4) cur) (nxt + 4)
      (2 ^ 32 - headerSize)) (2 ^ 32 - headerSize + 8) sz) nxt = 2 ^ 32 - headerSize := by
    rw [previous,word_setWord_other (by omega),word_setWord_same (by omega)]
  rw [Heap.insertBlock]
  simp only [hlink]
  split
  · rw [previous,word_congr fun i hi => zero_out (by omega)]
    exact hwords
  · exact hwords

/-- The search from one block on returns null or a block in a gap exactly when
no gap deceives it. -/
theorem allocateFrom_inGap (hb : h.blocks = l) (ha : 0 < alignment) (hasmall : alignment < 2 ^ 32)
    (hsz : sz < 2 ^ 32) : ∀ {rest l₁ : List ℕ} {cur fuel : ℕ}, Linked h l → l = l₁ ++ cur :: rest →
    rest.length < fuel →
    (InGap h sz (h.allocateFrom sz alignment zeroed fuel cur) ↔
      HonestGaps h.mem sz alignment (cur :: rest)) := by
  have hH : headerSize = 16 := rfl
  intro rest
  induction rest with
  | nil =>
    intro l₁ cur fuel hl hsplit hfuel
    obtain ⟨fuel,rfl⟩ := Nat.exists_eq_succ_of_ne_zero (Nat.ne_of_gt hfuel)
    have hlast := hl.last
    rw [hsplit,List.getLast?_append_cons,List.getLast?_singleton,Option.some.injEq] at hlast
    rw [Heap.allocateFrom,if_pos hlast]
    exact iff_of_true (.inl rfl) trivial
  | cons nxt rest ih =>
    intro l₁ cur fuel hl hsplit hfuel
    obtain ⟨fuel,rfl⟩ := Nat.exists_eq_succ_of_ne_zero
      (Nat.ne_of_gt (Nat.lt_of_le_of_lt (Nat.zero_le _) hfuel))
    have hsplit' : l = (l₁ ++ [cur]) ++ nxt :: rest := by
      rw [hsplit]
      simp
    have hl' := hl
    rw [hsplit] at hl'
    obtain ⟨-,hpair,-⟩ := chain_split hl'.chain
    obtain ⟨hge,hle,-⟩ := candidate_spec h.mem ha cur
    have hbelow := hpair.below
    have hend := hl'.end_le (a := nxt) (by simp)
    have hfinish := hl.finish
    have hsmall := hl.small
    have hne : cur ≠ h.lastBlock := by omega
    rw [Heap.allocateFrom,if_neg hne,HonestGaps]
    simp only [hpair.forward]
    by_cases hround : 2 ^ 32 ≤ cur + headerSize + size h.mem cur + headerSize + (alignment - 1)
    · -- the place is taken to be address zero
      have hzero : align (((cur + headerSize + size h.mem cur) % 2 ^ 32 + headerSize) % 2 ^ 32)
          alignment = 0 := by
        rw [Nat.mod_eq_of_lt (by omega : cur + headerSize + size h.mem cur < 2 ^ 32),
          Nat.mod_eq_of_lt (by omega)]
        exact align_wrapped (by omega) ha hasmall hround
      simp only [hzero,Nat.zero_add,Nat.mod_eq_of_lt hsz,Nat.zero_le,true_and]
      by_cases hfit : sz ≤ nxt
      · rw [if_pos hfit]
        refine iff_of_false ?_ fun hhonest => hhonest.1 (.inl ⟨hround,hfit⟩)
        rintro (heq | ⟨k₁,a,b,k₂,-,hlow,-⟩)
        · have hmem := congrArg (fun r : ℕ × Heap => previous r.2.mem nxt) heq
          rw [show (2 ^ 32 - headerSize) % 2 ^ 32 = 2 ^ 32 - headerSize from rfl] at hmem
          dsimp only at hmem
          rw [insertBlock_wrapped hpair.forward (by omega) (by omega) hfit,hpair.backward] at hmem
          omega
        · dsimp only at hlow
          omega
      · rw [if_neg hfit,ih hl hsplit' (by simpa using hfuel)]
        have hsound : ¬Deceptive h.mem sz alignment cur nxt := by
          rintro (⟨-,hin⟩ | ⟨hlt,-⟩) <;> omega
        rw [and_iff_right hsound,or_iff_right (by omega)]
    · rw [align_candidate h.mem ha (Nat.lt_of_not_le hround)]
      by_cases hdec : candidate h.mem alignment cur ≤ nxt ∧
          2 ^ 32 ≤ candidate h.mem alignment cur + sz
      · -- the end of the data wraps
        have hend' : (candidate h.mem alignment cur + sz) % 2 ^ 32 =
            candidate h.mem alignment cur + sz - 2 ^ 32 := by
          rw [Nat.mod_eq_sub_mod hdec.2,Nat.mod_eq_of_lt (by omega)]
        rw [if_pos (by rw [hend']; omega)]
        refine iff_of_false ?_ fun hhonest => hhonest.1 (.inr ⟨by omega,hdec.1,hdec.2⟩)
        rintro (heq | ⟨k₁,a,b,k₂,hk,-,hhigh⟩)
        · have hnull := congrArg Prod.fst heq
          dsimp only at hnull
          omega
        · dsimp only at hhigh
          have hb' := hl.end_le (a := b) (by rw [← hb,hk]; simp)
          omega
      · have hsound : ¬Deceptive h.mem sz alignment cur nxt := by
          rintro (⟨hlt,-⟩ | ⟨-,hin⟩)
          · omega
          · exact hdec hin
        rw [and_iff_right hsound]
        by_cases hfit : candidate h.mem alignment cur + sz ≤ nxt
        · rw [Nat.mod_eq_of_lt (by omega),if_pos ⟨by omega,hfit⟩]
          exact iff_of_true (.inr ⟨l₁,cur,nxt,rest,hb.trans hsplit,hge,hfit⟩) (.inl hfit)
        · have htest : ¬(candidate h.mem alignment cur ≤ nxt ∧
              (candidate h.mem alignment cur + sz) % 2 ^ 32 ≤ nxt) := by
            rintro ⟨hplace,hdata⟩
            rw [Nat.mod_eq_of_lt (by omega)] at hdata
            exact hfit hdata
          rw [if_neg htest,or_iff_right hfit]
          exact ih hl hsplit' (by simpa using hfuel)

/-- An allocation returns null or a block in a gap exactly when it is for
nothing or no gap deceives it. -/
theorem allocate_inGap_iff (hwf : WellFormed h) (hdef : 0 < h.defaultAlignment)
    (hdefsmall : h.defaultAlignment < 2 ^ 32) (hsz : sz < 2 ^ 32) (ha : alignment < 2 ^ 32)
    (zeroed : Bool) : InGap h sz (h.allocate sz alignment zeroed) ↔
      sz = 0 ∨ HonestGaps h.mem sz (h.alignmentOf alignment) h.blocks := by
  by_cases hzero : sz = 0
  · refine iff_of_true (.inl ?_) (.inl hzero)
    rw [Heap.allocate,if_pos hzero]
  · have hl : Linked h h.blocks := hwf
    have hpos : 0 < h.alignmentOf alignment := by
      rw [Heap.alignmentOf]
      split <;> omega
    have hsmall : h.alignmentOf alignment < 2 ^ 32 := by
      rw [Heap.alignmentOf]
      split <;> omega
    obtain ⟨rest,hrest,hlen,hrun⟩ := @allocate_eq h _ sz alignment zeroed hl hzero
    rw [hrun,or_iff_right hzero,hrest]
    exact @allocateFrom_inGap h h.blocks sz (h.alignmentOf alignment) zeroed rfl hpos hsmall hsz rest
      [] h.firstBlock h.heapEnd hl hrest hlen

end

/-- The empty heap is in order. -/
theorem wellFormed_kernelHeap : WellFormed kernelHeap :=
  (linked_initializeHeap _ 4 0 0 (by decide) (by decide)).wellFormed

/-- Ten bytes at a multiple of eight. -/
theorem allocate_inGap_iff_ten : InGap kernelHeap 10 (kernelHeap.allocate 10 8 true) ↔
    10 = 0 ∨ HonestGaps kernelHeap.mem 10 (kernelHeap.alignmentOf 8) kernelHeap.blocks :=
  allocate_inGap_iff wellFormed_kernelHeap (by decide) (by decide) (by decide) (by decide) true

/-- A request for all but one byte of the address space is granted in a heap of
400 bytes. -/
theorem oversized_block_granted : WellFormed kernelHeap ∧
    (kernelHeap.allocate (2 ^ 32 - 1) 4 false).1 = 0xC0100020 ∧
    ¬InGap kernelHeap (2 ^ 32 - 1) (kernelHeap.allocate (2 ^ 32 - 1) 4 false) := by
  have hptr : (kernelHeap.allocate (2 ^ 32 - 1) 4 false).1 = 0xC0100020 := by decide
  refine ⟨wellFormed_kernelHeap,hptr,?_⟩
  rintro (heq | ⟨l₁,cur,nxt,l₂,hl,-,hfit⟩)
  · have hnull := congrArg Prod.fst heq
    rw [hptr] at hnull
    exact absurd hnull (by decide)
  · rw [hptr] at hfit
    have hlinked : Linked kernelHeap kernelHeap.blocks := wellFormed_kernelHeap
    have hend := hlinked.end_le (a := nxt) (by rw [hl]; simp)
    have hsmall := hlinked.small
    omega

end WootOs.KernelHeap
