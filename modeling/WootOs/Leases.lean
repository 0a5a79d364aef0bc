import Mathlib.Data.Finset.Card
import Mathlib.Data.Multiset.Basic
import Mathlib.Data.Finset.Dedup

/-!
# Leases

A pool hands out slots of a table, and takes them back. A program holds some of
them at a time, and looks at a state and changes it in between. Not every slot
that is handed out need be one that can be given back.

A program is tidy when it gives back slots that it holds, and the rest of what it
does leaves the table alone. A tidy program never takes a slot that some pointer
names already. Its run leaves the table as it was exactly when, of the slots that
can be given back, as many were free as the run holds at once.
-/

namespace WootOs.Leases

/-- A program over states that takes slots for things of a type. -/
inductive Prog (σ A α : Type) where
  /-- Return. -/
  | ret (a : α)
  /-- Take a slot. -/
  | take (a : A) (k : ℕ → Prog σ A α)
  /-- Give a slot back. -/
  | give (s : ℕ) (k : Prog σ A α)
  /-- Change the state. -/
  | change (f : σ → σ) (k : Prog σ A α)
  /-- Look at the state. -/
  | look (k : σ → Prog σ A α)

/-- What a program does to the table. -/
inductive Event where
  /-- A slot was taken. -/
  | took (s : ℕ)
  /-- A slot was given back. -/
  | gave (s : ℕ)
  /-- No slot was free. -/
  | halted

/-- A table of slots. -/
structure Pool (σ A E : Type) where
  /-- Take a slot. -/
  alloc : σ → A → Option (ℕ × σ)
  /-- Give a slot back. -/
  free : σ → ℕ → σ
  /-- The table. -/
  entry : σ → ℕ → E
  /-- The entries of slots in use. -/
  used : E → Prop
  /-- They can be told. -/
  decUsed : DecidablePred used
  /-- The entry of a slot given back. -/
  empty : E
  /-- The slots that can be given back. -/
  low : Finset ℕ
  /-- A slot given back is not in use. -/
  not_used_empty : ¬used empty
  /-- A slot is taken that was not in use. -/
  alloc_free : ∀ {q a s r},alloc q a = some (s,r) → ¬used (entry q s)
  /-- It is in use then. -/
  alloc_used : ∀ {q a s r},alloc q a = some (s,r) → used (entry r s)
  /-- The others are the same. -/
  alloc_other : ∀ {q a s r t},alloc q a = some (s,r) → t ≠ s → entry r t = entry q t
  /-- The slots that can be given back are taken first. -/
  alloc_low : ∀ {q s} a,s ∈ low → ¬used (entry q s) → ∃ t ∈ low,∃ r,alloc q a = some (t,r)
  /-- A slot is given back. -/
  free_low : ∀ {q s},s ∈ low → entry (free q s) s = empty
  /-- Other slots cannot be. -/
  free_high : ∀ {q s},s ∉ low → entry (free q s) s = entry q s
  /-- The others are the same. -/
  free_other : ∀ {q s t},t ≠ s → entry (free q s) t = entry q t

attribute [instance] Pool.decUsed

namespace Prog

variable {σ A α β : Type}

/-- A program and then another one. -/
def bind : Prog σ A α → (α → Prog σ A β) → Prog σ A β
  | ret a,f => f a
  | take a k,f => take a fun s => (k s).bind f
  | give s k,f => give s (k.bind f)
  | change g k,f => change g (k.bind f)
  | look k,f => look fun q => (k q).bind f

instance : Monad (Prog σ A) where
  pure := ret
  bind := bind

/-- Take a slot. -/
def alloc (a : A) : Prog σ A ℕ := take a ret

/-- Give a slot back. -/
def free (s : ℕ) : Prog σ A Unit := give s (ret ())

/-- Change the state. -/
def modify (f : σ → σ) : Prog σ A Unit := change f (ret ())

/-- Look at the state. -/
def gets (f : σ → β) : Prog σ A β := look fun q => ret (f q)

/-- A loop whose turns say whether it goes on. -/
def loop (f : ℕ → Prog σ A Bool) : List ℕ → Prog σ A Bool
  | [] => ret true
  | i::l => (f i).bind fun go => if go = true then loop f l else ret false

theorem bind_eq (x : Prog σ A α) (f : α → Prog σ A β) : x >>= f = x.bind f := (rfl)

theorem pure_eq (a : α) : (pure a : Prog σ A α) = ret a := (rfl)

theorem take_bind (a : A) (k : ℕ → Prog σ A α) (f : α → Prog σ A β) :
    (take a k).bind f = take a fun s => (k s).bind f := (rfl)

theorem alloc_bind (a : A) (f : ℕ → Prog σ A β) : (alloc a).bind f = take a f := (rfl)

theorem free_bind (s : ℕ) (f : Unit → Prog σ A β) :
    (free s).bind f = give s (f ()) := (rfl)

theorem modify_bind (g : σ → σ) (f : Unit → Prog σ A β) :
    (modify g).bind f = change g (f ()) := (rfl)

theorem gets_bind (g : σ → α) (f : α → Prog σ A β) :
    (gets g).bind f = look fun q => f (g q) := (rfl)

end Prog

open Prog Event

section Runs

variable {σ A E α β : Type} (P : Pool σ A E)

/-- The run of a program; it halts when no slot is free. -/
def run : Prog σ A α → σ → Option (α × σ)
  | ret a,q => some (a,q)
  | take a k,q => (P.alloc q a).bind fun w => run (k w.1) w.2
  | give s k,q => run k (P.free q s)
  | change f k,q => run k (f q)
  | look k,q => run (k q) q

/-- What the run does to the table. -/
def trace : Prog σ A α → σ → List Event
  | ret _,_ => []
  | take a k,q => match P.alloc q a with
    | none => [halted]
    | some w => took w.1::trace (k w.1) w.2
  | give s k,q => gave s::trace k (P.free q s)
  | change f k,q => trace k (f q)
  | look k,q => trace (k q) q

/-- A slot is taken when no live pointer names it, neither one of the program nor
one from before; only slots of the program are given back. -/
def Apart (busy : Set ℕ) : List Event → Multiset ℕ → Prop
  | [],_ => True
  | took s::es,l => s ∉ busy ∧ s ∉ l ∧ Apart busy es (s ::ₘ l)
  | gave s::es,l => s ∈ l ∧ Apart busy es (l.erase s)
  | halted::es,l => Apart busy es l

/-- The number of live pointers at the end. -/
def count : List Event → ℕ → ℕ
  | [],n => n
  | took _::es,n => count es (n + 1)
  | gave _::es,n => count es (n - 1)
  | halted::es,n => count es n

/-- The most live pointers at a time, with the one asked for in vain. -/
def peak : List Event → ℕ → ℕ
  | [],n => n
  | took _::es,n => peak es (n + 1)
  | gave _::es,n => max n (peak es (n - 1))
  | halted::es,n => max (n + 1) (peak es n)

/-- Slots are given back that the program holds, and nothing else changes the table.
It holds some slots before and after. -/
def Tidy : Prog σ A α → Multiset ℕ → (α → Multiset ℕ) → Prop
  | ret a,l,post => l = post a
  | take _ k,l,post => ∀ s,Tidy (k s) (s ::ₘ l) post
  | give s k,l,post => ∃ l',l = s ::ₘ l' ∧ Tidy k l' post
  | change f k,l,post => (∀ q,P.entry (f q) = P.entry q) ∧ Tidy k l post
  | look k,l,post => ∀ q,Tidy (k q) l post

/-- The slots not in use that can be given back. -/
def spare (q : σ) : Finset ℕ := P.low.filter fun s => ¬P.used (P.entry q s)

/-- Slots not in use that can be given back have the entry of those given back. -/
def Clean (q : σ) : Prop := ∀ s ∈ spare P q,P.entry q s = P.empty

variable {P} {x : Prog σ A α} {f : α → Prog σ A β} {p q r : σ} {l : Multiset ℕ}
  {post : α → Multiset ℕ} {post' : β → Multiset ℕ} {s n m : ℕ}

theorem run_ret (a : α) : run P (ret a) q = some (a,q) := (rfl)

theorem run_take (a : A) (k : ℕ → Prog σ A α) :
    run P (take a k) q = (P.alloc q a).bind fun w => run P (k w.1) w.2 := (rfl)

theorem run_give (s : ℕ) (k : Prog σ A α) : run P (give s k) q = run P k (P.free q s) := (rfl)

theorem run_change (f : σ → σ) (k : Prog σ A α) : run P (change f k) q = run P k (f q) := (rfl)

theorem run_look (k : σ → Prog σ A α) : run P (look k) q = run P (k q) q := (rfl)

theorem trace_take (a : A) (k : ℕ → Prog σ A α) :
    trace P (take a k) q = match P.alloc q a with
      | none => [halted]
      | some w => took w.1::trace P (k w.1) w.2 := by
  rw [trace]

theorem trace_give (s : ℕ) (k : Prog σ A α) :
    trace P (give s k) q = gave s::trace P k (P.free q s) := (rfl)

theorem count_gave (s : ℕ) (es : List Event) : count (gave s::es) n = count es (n - 1) := (rfl)

theorem peak_gave (s : ℕ) (es : List Event) :
    peak (gave s::es) n = max n (peak es (n - 1)) := (rfl)

theorem peak_halted (es : List Event) : peak (halted::es) n = max (n + 1) (peak es n) := (rfl)

theorem run_ite {c : Prop} [Decidable c] (x y : Prog σ A α) :
    run P (if c then x else y) q = if c then run P x q else run P y q := by
  split_ifs <;> rfl

theorem run_bind : run P (x.bind f) q = (run P x q).bind fun w => run P (f w.1) w.2 := by
  induction x generalizing q with
  | ret a => rfl
  | take a k ih =>
    rw [take_bind,run_take,run_take,Option.bind_assoc]
    exact congrArg _ (funext fun w => ih w.1)
  | give s k ih => exact ih
  | change g k ih => exact ih
  | look k ih => exact ih q

theorem trace_bind : trace P (x.bind f) q =
    trace P x q ++ ((run P x q).map fun w => trace P (f w.1) w.2).getD [] := by
  induction x generalizing q with
  | ret a => rfl
  | take a k ih =>
    rw [take_bind,trace_take,trace_take,run_take]
    cases P.alloc q a with
    | none => rfl
    | some w => exact congrArg _ (ih w.1)
  | give s k ih => exact congrArg _ ih
  | change g k ih => exact ih
  | look k ih => exact ih q

theorem count_append (es es' : List Event) : count (es ++ es') n = count es' (count es n) := by
  induction es generalizing n with
  | nil => rfl
  | cons e es ih =>
    cases e with
    | took s => exact ih
    | gave s => exact ih
    | halted => exact ih

theorem peak_append (es es' : List Event) :
    peak (es ++ es') n = max (peak es n) (peak es' (count es n)) := by
  induction es generalizing n with
  | nil =>
    have hle : n ≤ peak es' n := by
      induction es' generalizing n with
      | nil => exact le_rfl
      | cons e es' ih =>
        cases e with
        | took s => exact (Nat.le_succ n).trans ih
        | gave s => exact le_max_left _ _
        | halted => exact (Nat.le_succ n).trans (le_max_left _ _)
    exact (max_eq_right hle).symm
  | cons e es ih =>
    cases e with
    | took s => exact ih
    | gave s =>
      rw [List.cons_append,peak_gave,ih,peak_gave,count_gave,max_assoc]
    | halted =>
      rw [List.cons_append,peak_halted,ih,peak_halted,max_assoc]
      rfl

theorem tidy_ret {a : α} (h : l = post a) : Tidy P (ret a) l post := h

theorem tidy_take {a : A} {k : ℕ → Prog σ A α} (h : ∀ s,Tidy P (k s) (s ::ₘ l) post) :
    Tidy P (take a k) l post := h

theorem tidy_give {k : Prog σ A α} (h : Tidy P k l post) :
    Tidy P (give s k) (s ::ₘ l) post := ⟨l,rfl,h⟩

theorem tidy_change {f : σ → σ} {k : Prog σ A α} (hf : ∀ q,P.entry (f q) = P.entry q)
    (h : Tidy P k l post) : Tidy P (change f k) l post := ⟨hf,h⟩

theorem tidy_look {k : σ → Prog σ A α} (h : ∀ q,Tidy P (k q) l post) :
    Tidy P (look k) l post := h

theorem tidy_ite {c : Prop} {inst : Decidable c} {y : Prog σ A α} (h : c → Tidy P x l post)
    (h' : ¬c → Tidy P y l post) : Tidy P (if c then x else y) l post := by
  split_ifs with hc
  · exact h hc
  · exact h' hc

theorem tidy_bind (hx : Tidy P x l post) (hf : ∀ a,Tidy P (f a) (post a) post') :
    Tidy P (x.bind f) l post' := by
  induction x generalizing l with
  | ret a =>
    have hl : l = post a := hx
    rw [hl]
    exact hf a
  | take a k ih => exact fun s => ih s (hx s)
  | give s k ih =>
    obtain ⟨l',hl,hk⟩ := hx
    exact ⟨l',hl,ih hk⟩
  | change g k ih => exact ⟨hx.1,ih hx.2⟩
  | look k ih => exact fun q => ih q (hx q)

theorem tidy_loop {f : ℕ → Prog σ A Bool} (hf : ∀ i,Tidy P (f i) l fun _ => l) (is : List ℕ) :
    Tidy P (loop f is) l fun _ => l := by
  induction is with
  | nil => exact rfl
  | cons i is ih =>
    refine tidy_bind (hf i) fun go => ?_
    cases go with
    | true => exact ih
    | false => exact rfl

/-- The number of slots that a tidy program holds at the end. -/
theorem Tidy.count (hx : Tidy P x l post) {a : α} (h : run P x q = some (a,r)) :
    count (trace P x q) l.card = (post a).card := by
  induction x generalizing l q with
  | ret b =>
    obtain ⟨rfl,rfl⟩ := Prod.mk.inj (Option.some.inj h)
    exact congrArg Multiset.card hx
  | take b k ih =>
    obtain ⟨w,hw,h⟩ := Option.bind_eq_some_iff.mp h
    have hk := ih w.1 (hx w.1) h
    rw [Multiset.card_cons] at hk
    rw [trace_take,hw]
    exact hk
  | give s k ih =>
    obtain ⟨l',rfl,hk⟩ := hx
    have hk := ih hk h
    rw [trace_give,count_gave,Multiset.card_cons,Nat.add_sub_cancel]
    exact hk
  | change g k ih => exact ih hx.2 h
  | look k ih => exact ih q (hx q) h

/-- A program that holds at the end what it did before. -/
theorem count_of_tidy (hx : ∀ l,Tidy P x l fun _ => l) {a : α} (h : run P x q = some (a,r)) :
    count (trace P x q) n = n := by
  have hn := (hx (Multiset.replicate n 0)).count h
  rwa [Multiset.card_replicate] at hn

end Runs

section Balance

variable {σ A E α : Type} {P : Pool σ A E} {x : Prog σ A α} {p q r : σ} {l : Multiset ℕ}
  {post : α → Multiset ℕ} {busy : Set ℕ} {s : ℕ} {a : A}

/-- A tidy program never takes a slot that a live pointer names. -/
theorem Tidy.apart (hx : Tidy P x l post) (hl : ∀ s ∈ l,P.used (P.entry q s) ∧ s ∉ busy)
    (hbusy : ∀ s ∈ busy,P.used (P.entry q s)) (hn : l.Nodup) : Apart busy (trace P x q) l := by
  induction x generalizing l q with
  | ret b => exact trivial
  | take a k ih =>
    rw [trace_take]
    cases hw : P.alloc q a with
    | none => exact trivial
    | some w =>
      have hfree := P.alloc_free hw
      have hsame : ∀ t,P.used (P.entry q t) → P.entry w.2 t = P.entry q t :=
        fun t ht => P.alloc_other hw fun heq => hfree (heq ▸ ht)
      have hb : w.1 ∉ busy := fun h => hfree (hbusy w.1 h)
      have hnew : w.1 ∉ l := fun h => hfree (hl w.1 h).1
      refine ⟨hb,hnew,ih w.1 (hx w.1) ?_ ?_ (Multiset.nodup_cons.mpr ⟨hnew,hn⟩)⟩
      · intro t ht
        rcases Multiset.mem_cons.mp ht with rfl | ht'
        · exact ⟨P.alloc_used hw,hb⟩
        · rw [hsame t (hl t ht').1]
          exact hl t ht'
      · intro t ht
        rw [hsame t (hbusy t ht)]
        exact hbusy t ht
  | give s k ih =>
    obtain ⟨l',rfl,hk⟩ := hx
    have hs := Multiset.nodup_cons.mp hn
    refine ⟨Multiset.mem_cons_self s l',?_⟩
    rw [Multiset.erase_cons_head]
    refine ih hk ?_ ?_ hs.2
    · intro t ht
      rw [P.free_other (ne_of_mem_of_not_mem ht hs.1)]
      exact hl t (Multiset.mem_cons_of_mem ht)
    · intro t ht
      rw [P.free_other (ne_of_mem_of_not_mem ht (hl s (Multiset.mem_cons_self s l')).2)]
      exact hbusy t ht
  | change g k ih =>
    refine ih hx.2 ?_ ?_ hn
    · rw [hx.1]
      exact hl
    · rw [hx.1]
      exact hbusy
  | look k ih => exact ih q (hx q) hl hbusy hn

variable (P) in
/-- The slots taken so far can all be given back, and the others are as before. -/
structure Held (p q : σ) (l : Multiset ℕ) : Prop where
  /-- They are different. -/
  nodup : l.Nodup
  /-- They can be given back and were not in use. -/
  free : ∀ s ∈ l,s ∈ spare P p
  /-- They are in use. -/
  taken : ∀ s ∈ l,P.used (P.entry q s)
  /-- The others are the same. -/
  rest : ∀ s,s ∉ l → P.entry q s = P.entry p s

variable (P) in
/-- A slot that cannot be given back was taken. -/
def Lost (p q : σ) : Prop :=
  ∃ s,s ∉ P.low ∧ ¬P.used (P.entry p s) ∧ P.used (P.entry q s)

theorem Held.card_le (h : Held P p q l) : l.card ≤ (spare P p).card := by
  rw [← Multiset.toFinset_card_of_nodup h.nodup]
  exact Finset.card_le_card fun s hs => h.free s (Multiset.mem_toFinset.mp hs)

/-- A slot is taken that can be given back. -/
theorem Held.take (h : Held P p q l) (hr : P.alloc q a = some (s,r)) (hs : s ∈ P.low) :
    Held P p r (s ::ₘ l) := by
  have hfree := P.alloc_free hr
  have hnew : s ∉ l := fun hc => hfree (h.taken s hc)
  refine ⟨Multiset.nodup_cons.mpr ⟨hnew,h.nodup⟩,?_,?_,?_⟩
  · intro t ht
    rcases Multiset.mem_cons.mp ht with rfl | ht'
    · rw [h.rest t hnew] at hfree
      exact Finset.mem_filter.mpr ⟨hs,hfree⟩
    · exact h.free t ht'
  · intro t ht
    rcases Multiset.mem_cons.mp ht with rfl | ht'
    · exact P.alloc_used hr
    · rw [P.alloc_other hr (ne_of_mem_of_not_mem ht' hnew)]
      exact h.taken t ht'
  · intro t ht
    rw [Multiset.mem_cons,not_or] at ht
    rw [P.alloc_other hr ht.1,h.rest t ht.2]

/-- A slot is taken that cannot. -/
theorem Held.lost (h : Held P p q l) (hr : P.alloc q a = some (s,r)) (hs : s ∉ P.low) :
    Lost P p r := by
  have hnew : s ∉ l := fun hc => hs (Finset.mem_filter.mp (h.free s hc)).1
  have hfree := P.alloc_free hr
  rw [h.rest s hnew] at hfree
  exact ⟨s,hs,hfree,P.alloc_used hr⟩

/-- A slot is given back. -/
theorem Held.give (hc : Clean P p) (h : Held P p q (s ::ₘ l)) : Held P p (P.free q s) l := by
  obtain ⟨hs,hn⟩ := Multiset.nodup_cons.mp h.nodup
  have hspare := h.free s (Multiset.mem_cons_self s l)
  refine ⟨hn,fun t ht => h.free t (Multiset.mem_cons_of_mem ht),?_,?_⟩
  · intro t ht
    rw [P.free_other (ne_of_mem_of_not_mem ht hs)]
    exact h.taken t (Multiset.mem_cons_of_mem ht)
  · intro t ht
    by_cases heq : t = s
    · rw [heq,P.free_low (Finset.mem_filter.mp hspare).1,hc s hspare]
    · rw [P.free_other heq,h.rest t fun hm => (Multiset.mem_cons.mp hm).elim heq ht]

/-- One more can be taken when not all that can be given back are held. -/
theorem Held.more (h : Held P p q l) (hlt : l.card < (spare P p).card) (a : A) :
    ∃ s ∈ P.low,∃ r,P.alloc q a = some (s,r) := by
  rw [← Multiset.toFinset_card_of_nodup h.nodup] at hlt
  obtain ⟨s,hs,hnew⟩ := Finset.exists_mem_notMem_of_card_lt_card hlt
  obtain ⟨hlow,hfree⟩ := Finset.mem_filter.mp hs
  rw [← h.rest s fun hc => hnew (Multiset.mem_toFinset.mpr hc)] at hfree
  exact P.alloc_low a hlow hfree

/-- What is lost stays lost. -/
theorem Lost.run (h : Lost P p q) (hx : Tidy P x l post) {b : α} (hr : run P x q = some (b,r)) :
    Lost P p r := by
  induction x generalizing l q with
  | ret b =>
    obtain ⟨rfl,rfl⟩ := Prod.mk.inj (Option.some.inj hr)
    exact h
  | take a k ih =>
    obtain ⟨w,hw,hr⟩ := Option.bind_eq_some_iff.mp hr
    obtain ⟨s,hs,hp,hq⟩ := h
    refine ih w.1 ⟨s,hs,hp,?_⟩ (hx w.1) hr
    rw [P.alloc_other hw fun heq => P.alloc_free hw (heq ▸ hq)]
    exact hq
  | give t k ih =>
    obtain ⟨l',rfl,hk⟩ := hx
    obtain ⟨s,hs,hp,hq⟩ := h
    refine ih ⟨s,hs,hp,?_⟩ hk hr
    by_cases heq : s = t
    · rw [← heq,P.free_high hs]
      exact hq
    · rw [P.free_other heq]
      exact hq
  | change g k ih =>
    obtain ⟨s,hs,hp,hq⟩ := h
    refine ih ⟨s,hs,hp,?_⟩ hx.2 hr
    rw [hx.1]
    exact hq
  | look k ih => exact ih q h (hx q) hr

theorem le_peak (es : List Event) (n : ℕ) : n ≤ peak es n :=
  le_of_le_of_eq (le_max_left n _) (peak_append [] es).symm

/-- With enough slots a tidy program returns and holds what it says; with too few a slot
is lost. -/
theorem Held.run (hc : Clean P p) (h : Held P p q l) (hx : Tidy P x l post) :
    (peak (trace P x q) l.card ≤ (spare P p).card →
        ∃ b r,run P x q = some (b,r) ∧ Held P p r (post b)) ∧
      ((spare P p).card < peak (trace P x q) l.card →
        ∀ b r,run P x q = some (b,r) → Lost P p r) := by
  induction x generalizing l q with
  | ret b =>
    have hl : l = post b := hx
    refine ⟨fun _ => ⟨b,q,rfl,hl ▸ h⟩,fun hlt => ?_⟩
    exact absurd h.card_le (not_le_of_gt hlt)
  | take a k ih =>
    rw [trace_take,run_take]
    cases hw : P.alloc q a with
    | none =>
      have hge : ¬l.card < (spare P p).card := by
        intro hlt
        obtain ⟨s,-,r,hr⟩ := h.more hlt a
        rw [hw] at hr
        cases hr
      refine ⟨fun hle => absurd ?_ hge,fun _ b r hr => by cases hr⟩
      exact (Nat.lt_succ_self _).trans_le ((le_max_left _ _).trans hle)
    | some w =>
      by_cases hs : w.1 ∈ P.low
      · have hk := ih w.1 (h.take hw hs) (hx w.1)
        rw [Multiset.card_cons] at hk
        exact hk
      · have hlost := h.lost hw hs
        refine ⟨fun hle => absurd hs ?_,fun _ b r hr => hlost.run (hx w.1) hr⟩
        have hlt : l.card < (spare P p).card :=
          (Nat.lt_succ_self _).trans_le ((le_peak _ _).trans hle)
        obtain ⟨s,hs',r,hr⟩ := h.more hlt a
        rw [hw] at hr
        rw [not_not,Option.some.inj hr]
        exact hs'
  | give s k ih =>
    obtain ⟨l',rfl,hk⟩ := hx
    have hle := h.card_le
    have hk := ih (h.give hc) hk
    rw [trace_give,peak_gave,Multiset.card_cons,Nat.add_sub_cancel]
    rw [Multiset.card_cons] at hle
    refine ⟨fun hm => hk.1 ((le_max_right _ _).trans hm),fun hm => hk.2 ?_⟩
    exact (lt_max_iff.mp hm).resolve_left (not_lt_of_ge hle)
  | change g k ih =>
    have hg : Held P p (g q) l :=
      ⟨h.nodup,h.free,by rw [hx.1]; exact h.taken,by rw [hx.1]; exact h.rest⟩
    exact ih hg hx.2
  | look k ih => exact ih q h (hx q)

theorem Held.refl (p : σ) : Held P p p 0 :=
  ⟨Multiset.nodup_zero,fun s hs => absurd hs (Multiset.notMem_zero s),
    fun s hs => absurd hs (Multiset.notMem_zero s),fun _ _ => rfl⟩

/-- A tidy program that holds nothing before and after leaves the table as it was
exactly when as many slots that can be given back are free as it holds at once. -/
theorem balanced_iff (hc : Clean P p) (hx : Tidy P x 0 fun _ => 0) :
    (∃ b q,run P x p = some (b,q) ∧ P.entry q = P.entry p) ↔
      peak (trace P x p) 0 ≤ (spare P p).card := by
  have hrun := (Held.refl p).run hc hx
  rw [Multiset.card_zero] at hrun
  constructor
  · rintro ⟨b,q,hq,heq⟩
    by_contra hlt
    obtain ⟨s,-,hfree,hused⟩ := hrun.2 (not_le.mp hlt) b q hq
    exact hfree (heq ▸ hused)
  · intro hle
    obtain ⟨b,q,hq,hheld⟩ := hrun.1 hle
    exact ⟨b,q,hq,funext fun s => hheld.rest s (Multiset.notMem_zero s)⟩

/-- The table stays clean. -/
theorem Clean.run (hc : Clean P q) (hx : Tidy P x l post) {b : α} (hr : run P x q = some (b,r)) :
    Clean P r := by
  have hmem : ∀ {q s},s ∈ spare P q ↔ s ∈ P.low ∧ ¬P.used (P.entry q s) := Finset.mem_filter
  induction x generalizing l q with
  | ret b =>
    obtain ⟨rfl,rfl⟩ := Prod.mk.inj (Option.some.inj hr)
    exact hc
  | take a k ih =>
    obtain ⟨w,hw,hr⟩ := Option.bind_eq_some_iff.mp hr
    refine ih w.1 (fun s hs => ?_) (hx w.1) hr
    obtain ⟨hlow,hfree⟩ := hmem.mp hs
    have hne : s ≠ w.1 := fun heq => hfree (heq ▸ P.alloc_used hw)
    rw [P.alloc_other hw hne] at hfree ⊢
    exact hc s (hmem.mpr ⟨hlow,hfree⟩)
  | give t k ih =>
    obtain ⟨l',rfl,hk⟩ := hx
    refine ih (fun s hs => ?_) hk hr
    obtain ⟨hlow,hfree⟩ := hmem.mp hs
    by_cases heq : s = t
    · rw [← heq]
      exact P.free_low hlow
    · rw [P.free_other heq] at hfree ⊢
      exact hc s (hmem.mpr ⟨hlow,hfree⟩)
  | change g k ih =>
    refine ih (fun s hs => ?_) hx.2 hr
    obtain ⟨hlow,hfree⟩ := hmem.mp hs
    rw [hx.1] at hfree ⊢
    exact hc s (hmem.mpr ⟨hlow,hfree⟩)
  | look k ih => exact ih q hc (hx q) hr

variable (P) in
/-- Slots in use at first are the same. Of the others, those that can be given back are the
same too once they are. -/
structure Leaves (p q : σ) (l : Multiset ℕ) : Prop where
  /-- The slots held are different. -/
  nodup : l.Nodup
  /-- They were not in use and are now. -/
  held : ∀ s ∈ l,P.used (P.entry q s) ∧ ¬P.used (P.entry p s)
  /-- The slots in use at first are the same. -/
  busy : ∀ s,P.used (P.entry p s) → P.entry q s = P.entry p s
  /-- So are those that can be given back. -/
  low : ∀ s ∈ P.low,s ∉ l → P.entry q s = P.entry p s

theorem Leaves.refl (p : σ) : Leaves P p p 0 :=
  ⟨Multiset.nodup_zero,fun s hs => absurd hs (Multiset.notMem_zero s),fun _ _ => rfl,
    fun _ _ _ => rfl⟩

theorem Leaves.take (h : Leaves P p q l) (hr : P.alloc q a = some (s,r)) :
    Leaves P p r (s ::ₘ l) := by
  have hfree := P.alloc_free hr
  have hold : ¬P.used (P.entry p s) := fun hc => hfree (by rwa [h.busy s hc])
  have hnew : s ∉ l := fun hc => hfree (h.held s hc).1
  refine ⟨Multiset.nodup_cons.mpr ⟨hnew,h.nodup⟩,?_,?_,?_⟩
  · intro t ht
    rcases Multiset.mem_cons.mp ht with rfl | ht'
    · exact ⟨P.alloc_used hr,hold⟩
    · rw [P.alloc_other hr (ne_of_mem_of_not_mem ht' hnew)]
      exact h.held t ht'
  · intro t ht
    rw [P.alloc_other hr fun heq => hold (heq ▸ ht)]
    exact h.busy t ht
  · intro t ht hnot
    rw [Multiset.mem_cons,not_or] at hnot
    rw [P.alloc_other hr hnot.1]
    exact h.low t ht hnot.2

theorem Leaves.give (hc : Clean P p) (h : Leaves P p q (s ::ₘ l)) :
    Leaves P p (P.free q s) l := by
  obtain ⟨hs,hn⟩ := Multiset.nodup_cons.mp h.nodup
  have hold := (h.held s (Multiset.mem_cons_self s l)).2
  refine ⟨hn,?_,?_,?_⟩
  · intro t ht
    rw [P.free_other (ne_of_mem_of_not_mem ht hs)]
    exact h.held t (Multiset.mem_cons_of_mem ht)
  · intro t ht
    have hne : t ≠ s := fun heq => hold (heq ▸ ht)
    rw [P.free_other hne]
    exact h.busy t ht
  · intro t ht hnot
    by_cases heq : t = s
    · rw [heq,P.free_low (heq ▸ ht)]
      exact (hc s (Finset.mem_filter.mpr ⟨heq ▸ ht,hold⟩)).symm
    · rw [P.free_other heq]
      exact h.low t ht fun hm => (Multiset.mem_cons.mp hm).elim heq hnot

/-- Whether it loses slots or not, a tidy program changes neither the slots in use at first
nor those that can be given back. -/
theorem Leaves.run (hc : Clean P p) (h : Leaves P p q l) (hx : Tidy P x l post) {b : α}
    (hr : run P x q = some (b,r)) : Leaves P p r (post b) := by
  induction x generalizing l q with
  | ret b =>
    obtain ⟨rfl,rfl⟩ := Prod.mk.inj (Option.some.inj hr)
    exact (show l = post b from hx) ▸ h
  | take a k ih =>
    obtain ⟨w,hw,hr⟩ := Option.bind_eq_some_iff.mp hr
    exact ih w.1 (h.take hw) (hx w.1) hr
  | give s k ih =>
    obtain ⟨l',rfl,hk⟩ := hx
    exact ih (h.give hc) hk hr
  | change g k ih =>
    refine ih ⟨h.nodup,?_,?_,?_⟩ hx.2 hr
    · rw [hx.1]
      exact h.held
    · rw [hx.1]
      exact h.busy
    · rw [hx.1]
      exact h.low
  | look k ih => exact ih q h (hx q) hr

end Balance

section Opening

variable {σ A E α β : Type} {P : Pool σ A E} {q r : σ} {n m : ℕ}

variable (P) in
/-- From some number of slots held, the most that a run holds at once. A run that halts
may not get that far. -/
structure Opens (x : Prog σ A α) (q : σ) (n m : ℕ) : Prop where
  /-- No more. -/
  le : peak (trace P x q) n ≤ m
  /-- As many, when it returns. -/
  eq : ∀ b r,run P x q = some (b,r) → peak (trace P x q) n = m

theorem Opens.ret (b : α) : Opens P (.ret b) q n n := ⟨le_rfl,fun _ _ _ => rfl⟩

theorem Opens.take {a : A} {k : ℕ → Prog σ A α} (hm : n + 1 ≤ m)
    (hk : ∀ s r,P.alloc q a = some (s,r) → Opens P (k s) r (n + 1) m) :
    Opens P (.take a k) q n m := by
  cases hw : P.alloc q a with
  | none =>
    refine ⟨?_,fun b r hr => ?_⟩
    · rw [trace_take,hw]
      exact max_le hm ((Nat.le_succ n).trans hm)
    · rw [run_take,hw] at hr
      cases hr
  | some w =>
    have h := hk w.1 w.2 hw
    refine ⟨?_,fun b r hr => ?_⟩
    · rw [trace_take,hw]
      exact h.le
    · rw [run_take,hw] at hr
      rw [trace_take,hw]
      exact h.eq b r hr

theorem Opens.give {s j : ℕ} {k : Prog σ A α} (h : Opens P k (P.free q s) (n - 1) j)
    (hm : m = max n j) : Opens P (.give s k) q n m := by
  rw [hm]
  exact ⟨max_le_max le_rfl h.le,fun b r hr => congrArg (max n) (h.eq b r hr)⟩

theorem Opens.ite {c : Prop} {inst : Decidable c} {x y : Prog σ A α} {m' : ℕ}
    (h : c → Opens P x q n m) (h' : ¬c → Opens P y q n m') :
    Opens P (if c then x else y) q n (if c then m else m') := by
  split_ifs with hc
  · exact h hc
  · exact h' hc

theorem Opens.change {f : σ → σ} {k : Prog σ A α} (h : Opens P k (f q) n m) :
    Opens P (.change f k) q n m := ⟨h.le,h.eq⟩

theorem Opens.look {k : σ → Prog σ A α} (h : Opens P (k q) q n m) :
    Opens P (.look k) q n m := ⟨h.le,h.eq⟩

/-- A second program that opens no more than the first one did. -/
theorem Opens.bind {x : Prog σ A α} {f : α → Prog σ A β} (h : Opens P x q n m)
    (hf : ∀ b r,run P x q = some (b,r) →
      peak (trace P (f b) r) (count (trace P x q) n) ≤ m) :
    Opens P (x.bind f) q n m := by
  cases hx : run P x q with
  | none =>
    refine ⟨?_,fun b r hr => ?_⟩
    · rw [trace_bind,hx,Option.map_none,Option.getD_none,List.append_nil]
      exact h.le
    · rw [run_bind,hx] at hr
      cases hr
  | some w =>
    have hpeak : peak (trace P (x.bind f) q) n = m := by
      rw [trace_bind,hx,Option.map_some,Option.getD_some,peak_append,h.eq w.1 w.2 hx]
      exact max_eq_left (hf w.1 w.2 hx)
    exact ⟨hpeak.le,fun _ _ _ => hpeak⟩

variable (P) in
/-- A turn of a loop that does nothing. -/
def Idle (x : Prog σ A Bool) (q : σ) : Prop := run P x q = some (true,q) ∧ trace P x q = []

variable {f : ℕ → Prog σ A Bool} {is : List ℕ}

/-- A loop does nothing when its turns do nothing. -/
theorem loop_idle (h : ∀ i ∈ is,Idle P (f i) q) : Idle P (loop f is) q := by
  induction is with
  | nil => exact ⟨rfl,rfl⟩
  | cons i is ih =>
    obtain ⟨hrun,htrace⟩ := h i List.mem_cons_self
    rw [Idle,loop,run_bind,trace_bind,hrun,htrace]
    exact ih fun j hj => h j (List.mem_cons_of_mem i hj)

theorem Idle.opens {x : Prog σ A Bool} (h : Idle P x q) : Opens P x q n n := by
  refine ⟨?_,fun _ _ _ => ?_⟩
  · rw [h.2]
    exact le_rfl
  · rw [h.2]
    rfl

/-- A slot is given back after a program that holds at the end what it did before. -/
theorem Opens.bind_free {x : Prog σ A α} {s : ℕ} (h : Opens P x q n m)
    (hcount : ∀ b r,run P x q = some (b,r) → count (trace P x q) n = n) :
    Opens P (x.bind fun _ => free s) q n m := by
  refine h.bind fun b r hr => ?_
  have hn : n ≤ m := (le_peak (trace P x q) n).trans h.le
  rw [hcount b r hr]
  exact max_le hn ((Nat.sub_le n 1).trans hn)

/-- A loop stops when its first turn that does something stops. -/
theorem loop_stops (busy : ℕ → Prop) (hidle : ∀ i ∈ is,¬busy i → Idle P (f i) q)
    (hbusy : ∀ i ∈ is,busy i → ∀ b r,run P (f i) q = some (b,r) → b = false)
    (hex : ∃ i ∈ is,busy i) {b : Bool} (h : run P (loop f is) q = some (b,r)) : b = false := by
  induction is with
  | nil =>
    obtain ⟨i,hi,-⟩ := hex
    cases hi
  | cons i is ih =>
    rw [loop,run_bind] at h
    by_cases hi : busy i
    · obtain ⟨w,hw,h⟩ := Option.bind_eq_some_iff.mp h
      rw [hbusy i List.mem_cons_self hi w.1 w.2 hw,if_neg Bool.false_ne_true] at h
      exact (Prod.mk.inj (Option.some.inj h)).1.symm
    · rw [(hidle i List.mem_cons_self hi).1] at h
      refine ih (fun j hj => hidle j (List.mem_cons_of_mem i hj))
        (fun j hj => hbusy j (List.mem_cons_of_mem i hj)) ?_ h
      obtain ⟨j,hj,hb⟩ := hex
      rcases List.mem_cons.mp hj with rfl | hj'
      · exact absurd hb hi
      · exact ⟨j,hj',hb⟩

/-- What the turns of a loop open at most, the loop does. -/
theorem peak_loop_le (hf : ∀ i q,peak (trace P (f i) q) n ≤ m)
    (hcount : ∀ i q b r,run P (f i) q = some (b,r) → count (trace P (f i) q) n = n)
    (is : List ℕ) (q : σ) (hn : n ≤ m) : peak (trace P (loop f is) q) n ≤ m := by
  induction is generalizing q with
  | nil => exact hn
  | cons i is ih =>
    rw [loop,trace_bind]
    cases hi : run P (f i) q with
    | none =>
      rw [Option.map_none,Option.getD_none,List.append_nil]
      exact hf i q
    | some w =>
      rw [Option.map_some,Option.getD_some,peak_append,hcount i q w.1 w.2 hi]
      refine max_le (hf i q) ?_
      split_ifs
      · exact ih w.2
      · exact hn

/-- A loop opens what its first turn does that does something. -/
theorem Opens.loop (busy : ℕ → Prop) (hidle : ∀ i ∈ is,¬busy i → Idle P (f i) q)
    (hbusy : ∀ i ∈ is,busy i → Opens P (f i) q n m)
    (hcount : ∀ i q b r,run P (f i) q = some (b,r) → count (trace P (f i) q) n = n)
    (hrest : ∀ i ∈ is,busy i → ∀ r,run P (f i) q = some (true,r) →
      ∀ js,peak (trace P (loop f js) r) n ≤ m)
    (hn : n ≤ m) (hex : ∃ i ∈ is,busy i) : Opens P (loop f is) q n m := by
  induction is with
  | nil =>
    obtain ⟨i,hi,-⟩ := hex
    cases hi
  | cons i is ih =>
    by_cases hi : busy i
    · refine (hbusy i List.mem_cons_self hi).bind fun go r hr => ?_
      rw [hcount i q go r hr]
      cases go with
      | true => exact hrest i List.mem_cons_self hi r hr is
      | false => exact hn
    · obtain ⟨hrun,htrace⟩ := hidle i List.mem_cons_self hi
      have hsame : Opens P (Prog.loop f is) q n m := by
        refine ih (fun j hj => hidle j (List.mem_cons_of_mem i hj))
          (fun j hj => hbusy j (List.mem_cons_of_mem i hj))
          (fun j hj => hrest j (List.mem_cons_of_mem i hj)) ?_
        obtain ⟨j,hj,hb⟩ := hex
        rcases List.mem_cons.mp hj with rfl | hj'
        · exact absurd hb hi
        · exact ⟨j,hj',hb⟩
      have hloop : run P (Prog.loop f (i::is)) q = run P (Prog.loop f is) q ∧
          trace P (Prog.loop f (i::is)) q = trace P (Prog.loop f is) q := by
        rw [Prog.loop,run_bind,trace_bind,hrun,htrace]
        exact ⟨rfl,rfl⟩
      refine ⟨?_,fun b r hr => ?_⟩
      · rw [hloop.2]
        exact hsame.le
      · rw [hloop.1] at hr
        rw [hloop.2]
        exact hsame.eq b r hr

end Opening

-- A program with a long loop is not unrolled to see what its being tidy means.
attribute [irreducible] Tidy

end WootOs.Leases
