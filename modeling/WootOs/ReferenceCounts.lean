import Mathlib.Data.Int.Notation
import Mathlib.Data.List.Basic
import Mathlib.Data.List.Count
import Mathlib.Data.List.Nodup
import Mathlib.Logic.Function.Basic

/-!
# Objects with reference counts

Objects that are there as long as something refers to them, each with a count
of the references to it and all of them in one cache. The count may start below
one, at 1 - bias. A list holds the references, one element for each.
-/

namespace WootOs.ReferenceCounts

variable {ι : Type*} [DecidableEq ι]

/-- The objects in the cache are those that have a reference, and each counts its
references. -/
structure Counted (bias : ℤ) (count : ι → Option ℤ) (cache refs : List ι) : Prop where
  /-- An object with a reference has the number of its references, less the bias. -/
  counts : ∀ o ∈ refs,count o = some ((refs.count o : ℤ) - bias)
  /-- An object without a reference is gone. -/
  gone : ∀ o,o ∉ refs → count o = none
  /-- The cache has the objects that something refers to. -/
  listed : ∀ o,o ∈ cache ↔ o ∈ refs
  /-- The cache has each object once. -/
  nodup : cache.Nodup

variable {bias c : ℤ} {count : ι → Option ℤ} {cache refs refs' : List ι} {o : ι}

/-- Only the numbers of references matter. -/
theorem Counted.congr (h : Counted bias count cache refs)
    (hrefs : ∀ o,refs'.count o = refs.count o) : Counted bias count cache refs' := by
  have hmem (o : ι) : o ∈ refs' ↔ o ∈ refs := by
    rw [← List.count_pos_iff,← List.count_pos_iff,hrefs o]
  constructor
  · intro o ho
    rw [h.counts o ((hmem o).mp ho),hrefs o]
  · intro o ho
    exact h.gone o fun hin => ho ((hmem o).mpr hin)
  · intro o
    rw [h.listed o,hmem o]
  · exact h.nodup

/-- An object is there exactly when something refers to it. -/
theorem Counted.isSome_iff (h : Counted bias count cache refs) :
    (count o).isSome ↔ o ∈ refs := by
  by_cases ho : o ∈ refs
  · simp [h.counts o ho,ho]
  · simp [h.gone o ho,ho]

/-- The count of an object is the number of its references. -/
theorem Counted.eq_of_count (h : Counted bias count cache refs) (hc : count o = some c) :
    o ∈ refs ∧ c + bias = refs.count o := by
  have ho : o ∈ refs := h.isSome_iff.mp (hc ▸ rfl)
  have he : some c = some ((refs.count o : ℤ) - bias) := hc.symm.trans (h.counts o ho)
  exact ⟨ho,by injection he; omega⟩

/-- One more reference to an object. -/
theorem Counted.get (h : Counted bias count cache refs) (hc : count o = some c) :
    Counted bias (Function.update count o (some (c + 1))) cache (o :: refs) := by
  obtain ⟨ho,hcount⟩ := h.eq_of_count hc
  constructor
  · intro x hx
    by_cases he : x = o
    · subst he
      rw [Function.update_self,List.count_cons_self]
      congr 1
      omega
    · rw [Function.update_of_ne he,List.count_cons_of_ne (Ne.symm he)]
      exact h.counts x ((List.mem_cons.mp hx).resolve_left he)
  · intro x hx
    rw [Function.update_of_ne (List.ne_of_not_mem_cons hx)]
    exact h.gone x (List.not_mem_of_not_mem_cons hx)
  · intro x
    rw [h.listed x,List.mem_cons]
    constructor
    · exact Or.inr
    · rintro (rfl | hx)
      · exact ho
      · exact hx
  · exact h.nodup

/-- One of several references to an object is dropped. -/
theorem Counted.put_shared (h : Counted bias count cache (o :: refs)) (ho : o ∈ refs)
    (hc : count o = some c) :
    Counted bias (Function.update count o (some (c - 1))) cache refs := by
  have hcount := (h.eq_of_count hc).2
  rw [List.count_cons_self] at hcount
  constructor
  · intro x hx
    by_cases he : x = o
    · subst he
      rw [Function.update_self]
      congr 1
      omega
    · rw [Function.update_of_ne he,h.counts x (List.mem_cons_of_mem o hx),
        List.count_cons_of_ne (Ne.symm he)]
  · intro x hx
    have hne : x ≠ o := fun he => hx (he ▸ ho)
    rw [Function.update_of_ne hne]
    exact h.gone x (List.not_mem_cons_of_ne_of_not_mem hne hx)
  · intro x
    rw [h.listed x,List.mem_cons]
    constructor
    · rintro (rfl | hx)
      · exact ho
      · exact hx
    · exact Or.inr
  · exact h.nodup

/-- The last reference to an object is dropped, and the object goes. -/
theorem Counted.put_last (h : Counted bias count cache (o :: refs)) (ho : o ∉ refs) :
    Counted bias (Function.update count o none) (cache.erase o) refs := by
  constructor
  · intro x hx
    have hne : x ≠ o := fun he => ho (he ▸ hx)
    rw [Function.update_of_ne hne,h.counts x (List.mem_cons_of_mem o hx),
      List.count_cons_of_ne (Ne.symm hne)]
  · intro x hx
    by_cases he : x = o
    · rw [he,Function.update_self]
    · rw [Function.update_of_ne he]
      exact h.gone x (List.not_mem_cons_of_ne_of_not_mem he hx)
  · intro x
    rw [h.nodup.mem_erase_iff,h.listed x,List.mem_cons]
    constructor
    · rintro ⟨hne,rfl | hx⟩
      · exact absurd rfl hne
      · exact hx
    · intro hx
      exact ⟨fun he => ho (he ▸ hx),Or.inr hx⟩
  · exact h.nodup.erase o

/-- The reference to be dropped is the last one exactly when the count is at its start. -/
theorem Counted.last_iff (h : Counted bias count cache (o :: refs)) (hc : count o = some c) :
    o ∉ refs ↔ c = 1 - bias := by
  have hcount := (h.eq_of_count hc).2
  rw [List.count_cons_self] at hcount
  rw [← List.count_eq_zero]
  omega

/-- A new object has one reference. -/
theorem Counted.new (h : Counted bias count cache refs) (ho : o ∉ refs) (hc : c = 1 - bias) :
    Counted bias (Function.update count o (some c)) (o :: cache) (o :: refs) := by
  constructor
  · intro x hx
    by_cases he : x = o
    · subst he
      rw [Function.update_self,List.count_cons_self,List.count_eq_zero.mpr ho,hc]
      rfl
    · rw [Function.update_of_ne he,List.count_cons_of_ne (Ne.symm he)]
      exact h.counts x ((List.mem_cons.mp hx).resolve_left he)
  · intro x hx
    rw [Function.update_of_ne (List.ne_of_not_mem_cons hx)]
    exact h.gone x (List.not_mem_of_not_mem_cons hx)
  · intro x
    rw [List.mem_cons,List.mem_cons,h.listed x]
  · exact List.nodup_cons.mpr ⟨fun hin => ho ((h.listed o).mp hin),h.nodup⟩

end WootOs.ReferenceCounts
