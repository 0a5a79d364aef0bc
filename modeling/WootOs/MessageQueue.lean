import Mathlib.Data.List.Nodup
import Mathlib.Data.List.Perm.Basic
import Mathlib.Tactic.Ring
import Mathlib.Tactic.Linarith
import WootOs.Runs

/-!
# Message queues

A message queue is a ring of slots between two semaphores. A writer takes a
free slot, stores its value at the head, moves the head and signals an item. A
reader takes an item, loads the value at the tail, moves the tail and signals a
free slot. Any thread may run between two of these steps.

The semaphores count slots and items; here they are ideal ones. Nothing keeps
a second writer from storing at the same head before the first has moved it,
and likewise for two readers. The ring is a queue without loss as long as no
store and no load comes between the two steps of another one.

A Wait that fails makes its call return without any effect, so such calls do
not appear as steps.
-/

namespace WootOs.MessageQueue

open Runs

set_option linter.unusedSectionVars false

/-- How far the call of a thread has come. -/
inductive Stage where
  /-- The thread is in no call. -/
  | idle
  /-- Write has a free slot. -/
  | claimed
  /-- Write has stored its value. -/
  | stored
  /-- Write has moved the head. -/
  | advanced
  /-- Read has an item. -/
  | entitled
  /-- Read has loaded a value. -/
  | loaded
  /-- Read has moved the tail. -/
  | passed
  deriving DecidableEq

/-- A MessageQueue and the threads that use it. The fields from stores on record the
history. -/
structure Queue (T V : Type*) where
  /-- MessageQueue::data. -/
  data : ℕ → V
  /-- The count of MessageQueue::s. -/
  s : ℕ
  /-- The count of MessageQueue::m. -/
  m : ℕ
  /-- MessageQueue::cap. -/
  cap : ℕ
  /-- MessageQueue::h. -/
  h : ℕ
  /-- MessageQueue::t. -/
  t : ℕ
  /-- How far the call of each thread has come. -/
  stage : T → Stage
  /-- The variable val of the call of each thread. -/
  val : T → Option V
  /-- The values stored so far, each with its writer. -/
  stores : List (T × V)
  /-- The values loaded so far. -/
  loads : List V
  /-- What the Writes that have succeeded were given. -/
  written : List (T × V)
  /-- What the Reads that have succeeded returned. -/
  returned : List V
  /-- The slots written since they were last read. -/
  fresh : ℕ → Bool
  /-- Whether some Read has loaded a slot not written since it was last read. -/
  staleRead : Bool

/-- The steps of the threads. -/
inductive Op (T V : Type*) where
  /-- The Wait of Write, which succeeds. -/
  | waitSlot (c : T) (v : V)
  /-- Write stores its value. -/
  | store (c : T)
  /-- Write moves the head. -/
  | advanceHead (c : T)
  /-- Write signals an item and returns. -/
  | signalItem (c : T)
  /-- The Wait of Read, which succeeds. -/
  | waitItem (c : T)
  /-- Read loads a value. -/
  | load (c : T)
  /-- Read moves the tail. -/
  | advanceTail (c : T)
  /-- Read signals a free slot and returns. -/
  | signalSlot (c : T)
  deriving DecidableEq

variable {T V : Type*} [DecidableEq T]

namespace Queue

/-- A new queue, whose slots hold anything. -/
def start (capacity : ℕ) (data : ℕ → V) : Queue T V :=
  { data := data
    s := capacity
    m := 0
    cap := capacity
    h := 0
    t := 0
    stage := fun _ => .idle
    val := fun _ => none
    stores := []
    loads := []
    written := []
    returned := []
    fresh := fun _ => false
    staleRead := false }

variable (q : Queue T V)

/-- The call of a thread comes to its next step. -/
def move (c : T) (stage : Stage) : Queue T V := { q with stage := Function.update q.stage c stage }

/-- The Wait of MessageQueue::Write. -/
def waitSlot (c : T) (v : V) : Queue T V :=
  { q.move c .claimed with s := q.s - 1,val := Function.update q.val c (some v) }

/-- A value at the head. -/
def storeValue (c : T) (v : V) : Queue T V :=
  { q.move c .stored with
    data := Function.update q.data q.h v
    stores := q.stores ++ [(c,v)]
    fresh := Function.update q.fresh q.h true }

/-- The assignment to data[h]. -/
def store (c : T) : Queue T V :=
  match q.val c with
  | some v => q.storeValue c v
  | none => q

/-- The assignment to h. -/
def advanceHead (c : T) : Queue T V := { q.move c .advanced with h := (q.h + 1) % q.cap }

/-- The Signal of MessageQueue::Write. -/
def signalItem (c : T) : Queue T V :=
  { q.move c .idle with
    m := q.m + 1
    written := q.written ++ ((q.val c).map (c,·)).toList }

/-- The Wait of MessageQueue::Read. -/
def waitItem (c : T) : Queue T V := { q.move c .entitled with m := q.m - 1 }

/-- The read of data[t]. -/
def load (c : T) : Queue T V :=
  { q.move c .loaded with
    val := Function.update q.val c (some (q.data q.t))
    loads := q.loads ++ [q.data q.t]
    fresh := Function.update q.fresh q.t false
    staleRead := q.staleRead || !q.fresh q.t }

/-- The assignment to t. -/
def advanceTail (c : T) : Queue T V := { q.move c .passed with t := (q.t + 1) % q.cap }

/-- The Signal of MessageQueue::Read. -/
def signalSlot (c : T) : Queue T V :=
  { q.move c .idle with
    s := q.s + 1
    returned := q.returned ++ (q.val c).toList }

/-- The effect of a step. -/
def apply : Op T V → Queue T V
  | .waitSlot c v => q.waitSlot c v
  | .store c => q.store c
  | .advanceHead c => q.advanceHead c
  | .signalItem c => q.signalItem c
  | .waitItem c => q.waitItem c
  | .load c => q.load c
  | .advanceTail c => q.advanceTail c
  | .signalSlot c => q.signalSlot c

/-- The steps the threads can take. A Wait succeeds only when its semaphore has a unit. -/
def Enabled (live : List T) : Op T V → Prop
  | .waitSlot c _ => c ∈ live ∧ q.stage c = .idle ∧ 0 < q.s
  | .store c => c ∈ live ∧ q.stage c = .claimed
  | .advanceHead c => c ∈ live ∧ q.stage c = .stored
  | .signalItem c => c ∈ live ∧ q.stage c = .advanced
  | .waitItem c => c ∈ live ∧ q.stage c = .idle ∧ 0 < q.m
  | .load c => c ∈ live ∧ q.stage c = .entitled
  | .advanceTail c => c ∈ live ∧ q.stage c = .loaded
  | .signalSlot c => c ∈ live ∧ q.stage c = .passed

/-- No store comes between the store and the move of another writer, and no load between
the load and the move of another reader. -/
def Alone (live : List T) : Op T V → Prop
  | .store _ => ∀ c ∈ live,q.stage c ≠ .stored
  | .load _ => ∀ c ∈ live,q.stage c ≠ .loaded
  | _ => True

instance (live : List T) (op : Op T V) : Decidable (q.Enabled live op) :=
  match op with
  | .waitSlot c _ => inferInstanceAs (Decidable (c ∈ live ∧ q.stage c = .idle ∧ 0 < q.s))
  | .store c => inferInstanceAs (Decidable (c ∈ live ∧ q.stage c = .claimed))
  | .advanceHead c => inferInstanceAs (Decidable (c ∈ live ∧ q.stage c = .stored))
  | .signalItem c => inferInstanceAs (Decidable (c ∈ live ∧ q.stage c = .advanced))
  | .waitItem c => inferInstanceAs (Decidable (c ∈ live ∧ q.stage c = .idle ∧ 0 < q.m))
  | .load c => inferInstanceAs (Decidable (c ∈ live ∧ q.stage c = .entitled))
  | .advanceTail c => inferInstanceAs (Decidable (c ∈ live ∧ q.stage c = .loaded))
  | .signalSlot c => inferInstanceAs (Decidable (c ∈ live ∧ q.stage c = .passed))

instance (live : List T) (op : Op T V) : Decidable (q.Alone live op) :=
  match op with
  | .store _ => inferInstanceAs (Decidable (∀ c ∈ live,q.stage c ≠ .stored))
  | .load _ => inferInstanceAs (Decidable (∀ c ∈ live,q.stage c ≠ .loaded))
  | .waitSlot _ _ => inferInstanceAs (Decidable True)
  | .advanceHead _ => inferInstanceAs (Decidable True)
  | .signalItem _ => inferInstanceAs (Decidable True)
  | .waitItem _ => inferInstanceAs (Decidable True)
  | .advanceTail _ => inferInstanceAs (Decidable True)
  | .signalSlot _ => inferInstanceAs (Decidable True)

/-- What a writer has stored and not yet signalled. -/
def storing (c : T) : Option (T × V) :=
  if q.stage c = .stored ∨ q.stage c = .advanced then (q.val c).map (c,·) else none

/-- What a reader has loaded and not yet returned. -/
def loading (c : T) : Option V :=
  if q.stage c = .loaded ∨ q.stage c = .passed then q.val c else none

/-- How many threads have come as far as a stage. -/
def count (live : List T) (stage : Stage) : ℕ := live.countP fun c => decide (q.stage c = stage)

/-- The queue has lost nothing. -/
structure Lossless (live : List T) : Prop where
  /-- The values are loaded in the order in which they were stored. -/
  fifo : q.loads = (q.stores.map Prod.snd).take q.loads.length
  /-- Each value stored is that of one Write, which has succeeded or is under way. -/
  writes : (q.written ++ live.filterMap q.storing).Perm q.stores
  /-- Each value loaded is that of one Read, which has succeeded or is under way. -/
  reads : (q.returned ++ live.filterMap q.loading).Perm q.loads
  /-- For each value not yet loaded there is an item, or a Read that has one, or a Write
  that will signal it. -/
  pending : q.stores.length = q.loads.length + q.m + q.count live .entitled +
    q.count live .stored + q.count live .advanced
  /-- No Read has loaded a slot not written since it was last read. -/
  fresh : q.staleRead = false

end Queue

section Balance

/-- How the counts, the indices and the numbers of stores and loads hang together. -/
structure Balanced (cap s m h t stores loads : ℕ) (count : Stage → ℕ) : Prop where
  /-- One writer at most is between its store and its move. -/
  oneStore : count .stored ≤ 1
  /-- One reader at most is between its load and its move. -/
  oneLoad : count .loaded ≤ 1
  /-- The load under way is one of the loads. -/
  loadedLe : count .loaded ≤ loads
  /-- The head is behind by the store that has not been followed by its move. -/
  head : h = (stores - count .stored) % cap
  /-- The tail is behind by the load that has not been followed by its move. -/
  tail : t = (loads - count .loaded) % cap
  /-- Each slot is free, claimed, in use or about to be free. -/
  room : s + count .claimed + stores + count .loaded + count .passed = cap + loads
  /-- Each value not yet loaded has an item, a reader or a writer that will signal it. -/
  pending : stores = loads + m + count .entitled + count .stored + count .advanced

variable {cap s m h t stores loads : ℕ} {count count' : Stage → ℕ}

/-- The counts after one thread has moved. -/
def MovesCount (count count' : Stage → ℕ) (old new : Stage) : Prop :=
  0 < count old ∧
    ∀ st,count' st = count st + (if st = new then 1 else 0) - if st = old then 1 else 0

theorem balanced_start (hcount : ∀ st,st ≠ .idle → count st = 0) :
    Balanced cap cap 0 0 0 0 0 count := by
  constructor <;> simp [hcount]

theorem Balanced.waitSlot (hb : Balanced cap s m h t stores loads count)
    (hm : MovesCount count count' .idle .claimed) (hs : 0 < s) :
    Balanced cap (s - 1) m h t stores loads count' := by
  obtain ⟨hone,hload,hle,hhead,htail,hroom,hpending⟩ := hb
  constructor <;> simp only [hm.2,reduceCtorEq,if_true,if_false,Nat.add_zero,Nat.sub_zero] <;> omega

theorem Balanced.store (hb : Balanced cap s m h t stores loads count)
    (hm : MovesCount count count' .claimed .stored) (hnone : count .stored = 0) :
    Balanced cap s m h t (stores + 1) loads count' := by
  obtain ⟨hpos,hcount⟩ := hm
  obtain ⟨hone,hload,hle,hhead,htail,hroom,hpending⟩ := hb
  rw [hnone,Nat.sub_zero] at hhead
  constructor <;>
    simp only [hcount,hnone,reduceCtorEq,if_true,if_false,Nat.add_zero,Nat.sub_zero,Nat.zero_add,
      Nat.add_sub_cancel] <;> omega

/-- The next index of the ring. -/
theorem succ_mod (n : ℕ) (hn : 0 < n) : ((n - 1) % cap + 1) % cap = n % cap := by
  rw [Nat.mod_add_mod,Nat.sub_add_cancel hn]

theorem Balanced.advanceHead (hb : Balanced cap s m h t stores loads count)
    (hm : MovesCount count count' .stored .advanced) :
    Balanced cap s m ((h + 1) % cap) t stores loads count' := by
  obtain ⟨hpos,hcount⟩ := hm
  obtain ⟨hone,hload,hle,hhead,htail,hroom,hpending⟩ := hb
  have hstored : count .stored = 1 := by omega
  rw [hstored] at hhead
  constructor
  case head =>
    rw [hcount,hstored,hhead,succ_mod stores (by omega)]
    rfl
  all_goals
    simp only [hcount,reduceCtorEq,if_true,if_false,Nat.add_zero,Nat.sub_zero]
    omega

theorem Balanced.signalItem (hb : Balanced cap s m h t stores loads count)
    (hm : MovesCount count count' .advanced .idle) :
    Balanced cap s (m + 1) h t stores loads count' := by
  obtain ⟨hpos,hcount⟩ := hm
  obtain ⟨hone,hload,hle,hhead,htail,hroom,hpending⟩ := hb
  constructor <;> simp only [hcount,reduceCtorEq,if_true,if_false,Nat.add_zero,Nat.sub_zero] <;> omega

theorem Balanced.waitItem (hb : Balanced cap s m h t stores loads count)
    (hm : MovesCount count count' .idle .entitled) (hs : 0 < m) :
    Balanced cap s (m - 1) h t stores loads count' := by
  obtain ⟨hpos,hcount⟩ := hm
  obtain ⟨hone,hload,hle,hhead,htail,hroom,hpending⟩ := hb
  constructor <;> simp only [hcount,reduceCtorEq,if_true,if_false,Nat.add_zero,Nat.sub_zero] <;> omega

theorem Balanced.load (hb : Balanced cap s m h t stores loads count)
    (hm : MovesCount count count' .entitled .loaded) (hnone : count .loaded = 0) :
    Balanced cap s m h t stores (loads + 1) count' := by
  obtain ⟨hpos,hcount⟩ := hm
  obtain ⟨hone,hload,hle,hhead,htail,hroom,hpending⟩ := hb
  rw [hnone,Nat.sub_zero] at htail
  constructor <;>
    simp only [hcount,hnone,reduceCtorEq,if_true,if_false,Nat.add_zero,Nat.sub_zero,Nat.zero_add,
      Nat.add_sub_cancel] <;> omega

theorem Balanced.advanceTail (hb : Balanced cap s m h t stores loads count)
    (hm : MovesCount count count' .loaded .passed) :
    Balanced cap s m h ((t + 1) % cap) stores loads count' := by
  obtain ⟨hpos,hcount⟩ := hm
  obtain ⟨hone,hload,hle,hhead,htail,hroom,hpending⟩ := hb
  have hloaded : count .loaded = 1 := by omega
  rw [hloaded] at htail
  constructor
  case tail =>
    rw [hcount,hloaded,htail,succ_mod loads (by omega)]
    rfl
  all_goals
    simp only [hcount,reduceCtorEq,if_true,if_false,Nat.add_zero,Nat.sub_zero]
    omega

theorem Balanced.signalSlot (hb : Balanced cap s m h t stores loads count)
    (hm : MovesCount count count' .passed .idle) :
    Balanced cap (s + 1) m h t stores loads count' := by
  obtain ⟨hpos,hcount⟩ := hm
  obtain ⟨hone,hload,hle,hhead,htail,hroom,hpending⟩ := hb
  constructor <;> simp only [hcount,reduceCtorEq,if_true,if_false,Nat.add_zero,Nat.sub_zero] <;> omega

end Balance

section Counting

variable {live : List T} {B : Type*}

/-- One thread more for which a list has an element. -/
theorem filterMap_gain {f g : T → Option B} {c : T} {b : B} (hn : live.Nodup) (hc : c ∈ live)
    (hother : ∀ x,x ≠ c → g x = f x) (hf : f c = none) (hg : g c = some b) :
    (live.filterMap g).Perm (b :: live.filterMap f) := by
  obtain ⟨pre,post,rfl⟩ := List.append_of_mem hc
  rw [List.nodup_middle,List.nodup_cons,List.mem_append,not_or] at hn
  have hpre : pre.filterMap g = pre.filterMap f :=
    List.filterMap_congr fun x hx => hother x fun he => hn.1.1 (he ▸ hx)
  have hpost : post.filterMap g = post.filterMap f :=
    List.filterMap_congr fun x hx => hother x fun he => hn.1.2 (he ▸ hx)
  rw [List.filterMap_append,List.filterMap_append,List.filterMap_cons_some hg,
    List.filterMap_cons_none hf,hpre,hpost]
  exact List.perm_middle

/-- A step takes the call of one thread from a stage to another, and leaves the variables
of the other threads alone. -/
structure Moves (live : List T) (q q' : Queue T V) (c : T) (old new : Stage) : Prop where
  /-- The thread is one of those there are. -/
  mem : c ∈ live
  /-- The stage it comes from. -/
  source : q.stage c = old
  /-- The stage it comes to. -/
  stage : q'.stage = (q.move c new).stage
  /-- The other threads keep their variables. -/
  val : ∀ x,x ≠ c → q'.val x = q.val x
  /-- The two stages differ. -/
  ne : old ≠ new

variable {q q' : Queue T V} {c : T} {old new : Stage}

theorem Moves.stage_self (h : Moves live q q' c old new) : q'.stage c = new := by
  rw [h.stage]
  exact Function.update_self ..

theorem Moves.stage_of_ne (h : Moves live q q' c old new) {x : T} (hx : x ≠ c) :
    q'.stage x = q.stage x := by
  rw [h.stage]
  exact Function.update_of_ne hx _ _

/-- The threads at each stage after a step. -/
theorem Moves.count (h : Moves live q q' c old new) (hn : live.Nodup) :
    MovesCount (q.count live) (q'.count live) old new := by
  obtain ⟨pre,post,rfl⟩ := List.append_of_mem h.mem
  rw [List.nodup_middle,List.nodup_cons,List.mem_append,not_or] at hn
  have hpre : ∀ st,pre.countP (fun x => decide (q'.stage x = st)) =
      pre.countP fun x => decide (q.stage x = st) := fun st =>
    List.countP_congr fun x hx => by rw [h.stage_of_ne (ne_of_mem_of_not_mem hx hn.1.1)]
  have hpost : ∀ st,post.countP (fun x => decide (q'.stage x = st)) =
      post.countP fun x => decide (q.stage x = st) := fun st =>
    List.countP_congr fun x hx => by rw [h.stage_of_ne (ne_of_mem_of_not_mem hx hn.1.2)]
  have hne := h.ne
  simp only [MovesCount,Queue.count,List.countP_append,List.countP_cons,hpre,hpost,h.stage_self,h.source,
    decide_eq_true_eq,if_true]
  refine ⟨by omega,fun st => ?_⟩
  simp only [@eq_comm _ st]
  split_ifs <;> omega

theorem Moves.storing_of_ne (h : Moves live q q' c old new) {x : T} (hx : x ≠ c) :
    q'.storing x = q.storing x := by
  rw [Queue.storing,Queue.storing,h.stage_of_ne hx,h.val x hx]

theorem Moves.loading_of_ne (h : Moves live q q' c old new) {x : T} (hx : x ≠ c) :
    q'.loading x = q.loading x := by
  rw [Queue.loading,Queue.loading,h.stage_of_ne hx,h.val x hx]

/-- What the threads are storing after a step that does not store or signal. -/
theorem Moves.storing (h : Moves live q q' c old new) (hself : q'.storing c = q.storing c) :
    q'.storing = q.storing := by
  funext x
  by_cases hx : x = c
  · rw [hx,hself]
  · exact h.storing_of_ne hx

/-- What the threads are loading after a step that does not load or signal. -/
theorem Moves.loading (h : Moves live q q' c old new) (hself : q'.loading c = q.loading c) :
    q'.loading = q.loading := by
  funext x
  by_cases hx : x = c
  · rw [hx,hself]
  · exact h.loading_of_ne hx

theorem count_eq_zero {q : Queue T V} {st : Stage} (h : ∀ c ∈ live,q.stage c ≠ st) :
    q.count live st = 0 :=
  List.countP_eq_zero.mpr fun c hc => by simpa using h c hc

/-- Two indices less than a ring apart are two slots. -/
theorem mod_ne_of_lt {k n cap : ℕ} (hlt : k < n) (hcap : n < k + cap) : k % cap ≠ n % cap := by
  intro he
  have hdvd : cap ∣ n - k := Nat.dvd_of_mod_eq_zero (Nat.sub_mod_eq_zero_of_mod_eq he.symm)
  have hle := Nat.le_of_dvd (by omega) hdvd
  omega

end Counting

section Steps

variable {live : List T} {q q' : Queue T V} {c : T} {old new : Stage}

/-- The ring as long as no two writers and no two readers overlap. -/
structure Ring (live : List T) (q : Queue T V) : Prop where
  /-- There is a slot. -/
  cap : 0 < q.cap
  /-- The counts and the indices fit. -/
  balanced : Balanced q.cap q.s q.m q.h q.t q.stores.length q.loads.length (q.count live)
  /-- A call that has a value has it in its variable. -/
  given : ∀ c,q.stage c ≠ .idle → q.stage c ≠ .entitled → (q.val c).isSome
  /-- Each value stored is that of one Write. -/
  writes : (q.written ++ live.filterMap q.storing).Perm q.stores
  /-- Each value loaded is that of one Read. -/
  reads : (q.returned ++ live.filterMap q.loading).Perm q.loads
  /-- The values are loaded in the order in which they were stored. -/
  fifo : q.loads = (q.stores.map Prod.snd).take q.loads.length
  /-- The values not yet loaded are in their slots. -/
  slots : ∀ k v,q.loads.length ≤ k → (q.stores.map Prod.snd)[k]? = some v →
    q.data (k % q.cap) = v ∧ q.fresh (k % q.cap) = true
  /-- No Read has loaded a slot not written since it was last read. -/
  fresh : q.staleRead = false

theorem Ring.lossless (h : Ring live q) : q.Lossless live :=
  ⟨h.fifo,h.writes,h.reads,h.balanced.pending,h.fresh⟩

theorem ring_start {capacity : ℕ} (data : ℕ → V) (hcap : 0 < capacity) :
    Ring live (Queue.start capacity data : Queue T V) := by
  have hstoring : live.filterMap (Queue.start capacity data : Queue T V).storing = [] :=
    List.filterMap_eq_nil_iff.mpr fun c _ => rfl
  have hloading : live.filterMap (Queue.start capacity data : Queue T V).loading = [] :=
    List.filterMap_eq_nil_iff.mpr fun c _ => rfl
  refine ⟨hcap,balanced_start fun st hst => ?_,?_,by rw [hstoring]; rfl,by rw [hloading]; rfl,rfl,?_,
    rfl⟩
  · exact count_eq_zero fun c _ he => hst he.symm
  · intro c hidle
    exact absurd rfl hidle
  · intro k v _ hk
    cases hk

/-- The variables after a step that gives its call a value, or has one already. -/
theorem Ring.given_moves (h : Ring live q) (hm : Moves live q q' c old new)
    (hself : new = .idle ∨ new = .entitled ∨ (q'.val c).isSome) :
    ∀ x,q'.stage x ≠ .idle → q'.stage x ≠ .entitled → (q'.val x).isSome := by
  intro x hidle hentitled
  by_cases hx : x = c
  · rw [hx,hm.stage_self] at hidle hentitled
    rw [hx]
    exact (hself.resolve_left hidle).resolve_left hentitled
  · rw [hm.stage_of_ne hx] at hidle hentitled
    rw [hm.val x hx]
    exact h.given x hidle hentitled

/-- The value of a call that has come to a stage where it has one. -/
theorem Ring.exists_val (h : Ring live q) (hc : q.stage c = old) (hidle : old ≠ .idle)
    (hentitled : old ≠ .entitled) : ∃ v,q.val c = some v :=
  Option.isSome_iff_exists.mp (h.given c (hc ▸ hidle) (hc ▸ hentitled))

/-- The Wait of Write takes a free slot. -/
theorem Ring.waitSlot (h : Ring live q) {v : V} (hn : live.Nodup)
    (he : q.Enabled live (.waitSlot c v)) : Ring live (q.waitSlot c v) := by
  obtain ⟨hc,hidle,hpos⟩ := he
  have hm : Moves live q (q.waitSlot c v) c .idle .claimed :=
    ⟨hc,hidle,rfl,fun x hx => Function.update_of_ne hx _ _,by decide⟩
  have hstoring := hm.storing (by simp [Queue.storing,hm.stage_self,hidle])
  have hloading := hm.loading (by simp [Queue.loading,hm.stage_self,hidle])
  exact
    { cap := h.cap
      balanced := h.balanced.waitSlot (hm.count hn) hpos
      given := h.given_moves hm (by simp [Queue.waitSlot])
      writes := hstoring ▸ h.writes
      reads := hloading ▸ h.reads
      fifo := h.fifo
      slots := h.slots
      fresh := h.fresh }

/-- The move of the head. -/
theorem Ring.advanceHead (h : Ring live q) (hn : live.Nodup)
    (he : q.Enabled live (.advanceHead c : Op T V)) : Ring live (q.advanceHead c) := by
  obtain ⟨hc,hstored⟩ := he
  have hm : Moves live q (q.advanceHead c) c .stored .advanced :=
    ⟨hc,hstored,rfl,fun _ _ => rfl,by decide⟩
  obtain ⟨v,hv⟩ := h.exists_val hstored (by decide) (by decide)
  have hv' : (q.advanceHead c).val c = some v := hv
  have hstoring := hm.storing (by simp [Queue.storing,hm.stage_self,hstored,hv,hv'])
  have hloading := hm.loading (by simp [Queue.loading,hm.stage_self,hstored])
  exact
    { cap := h.cap
      balanced := h.balanced.advanceHead (hm.count hn)
      given := h.given_moves hm (by simp [hv'])
      writes := hstoring ▸ h.writes
      reads := hloading ▸ h.reads
      fifo := h.fifo
      slots := h.slots
      fresh := h.fresh }

/-- The Signal of Write makes an item of the value. -/
theorem Ring.signalItem (h : Ring live q) (hn : live.Nodup)
    (he : q.Enabled live (.signalItem c : Op T V)) : Ring live (q.signalItem c) := by
  obtain ⟨hc,hadvanced⟩ := he
  have hm : Moves live q (q.signalItem c) c .advanced .idle :=
    ⟨hc,hadvanced,rfl,fun _ _ => rfl,by decide⟩
  obtain ⟨v,hv⟩ := h.exists_val hadvanced (by decide) (by decide)
  have hloading := hm.loading (by simp [Queue.loading,hm.stage_self,hadvanced])
  have hbefore : q.storing c = some (c,v) := by simp [Queue.storing,hadvanced,hv]
  have hafter : (q.signalItem c).storing c = none := by simp [Queue.storing,hm.stage_self]
  have hperm := filterMap_gain hn hc (fun x hx => (hm.storing_of_ne hx).symm) hafter hbefore
  refine
    { cap := h.cap
      balanced := h.balanced.signalItem (hm.count hn)
      given := h.given_moves hm (.inl rfl)
      writes := ?_
      reads := hloading ▸ h.reads
      fifo := h.fifo
      slots := h.slots
      fresh := h.fresh }
  have hwritten : (q.signalItem c).written = q.written ++ [(c,v)] := by simp [Queue.signalItem,hv]
  rw [hwritten,List.append_assoc]
  exact (hperm.symm.append_left q.written).trans h.writes

/-- The Wait of Read takes an item. -/
theorem Ring.waitItem (h : Ring live q) (hn : live.Nodup)
    (he : q.Enabled live (.waitItem c : Op T V)) : Ring live (q.waitItem c) := by
  obtain ⟨hc,hidle,hpos⟩ := he
  have hm : Moves live q (q.waitItem c) c .idle .entitled := ⟨hc,hidle,rfl,fun _ _ => rfl,by decide⟩
  have hstoring := hm.storing (by simp [Queue.storing,hm.stage_self,hidle])
  have hloading := hm.loading (by simp [Queue.loading,hm.stage_self,hidle])
  exact
    { cap := h.cap
      balanced := h.balanced.waitItem (hm.count hn) hpos
      given := h.given_moves hm (.inr (.inl rfl))
      writes := hstoring ▸ h.writes
      reads := hloading ▸ h.reads
      fifo := h.fifo
      slots := h.slots
      fresh := h.fresh }

/-- The move of the tail. -/
theorem Ring.advanceTail (h : Ring live q) (hn : live.Nodup)
    (he : q.Enabled live (.advanceTail c : Op T V)) : Ring live (q.advanceTail c) := by
  obtain ⟨hc,hloaded⟩ := he
  have hm : Moves live q (q.advanceTail c) c .loaded .passed :=
    ⟨hc,hloaded,rfl,fun _ _ => rfl,by decide⟩
  obtain ⟨v,hv⟩ := h.exists_val hloaded (by decide) (by decide)
  have hv' : (q.advanceTail c).val c = some v := hv
  have hstoring := hm.storing (by simp [Queue.storing,hm.stage_self,hloaded])
  have hloading := hm.loading (by simp [Queue.loading,hm.stage_self,hloaded,hv,hv'])
  exact
    { cap := h.cap
      balanced := h.balanced.advanceTail (hm.count hn)
      given := h.given_moves hm (by simp [hv'])
      writes := hstoring ▸ h.writes
      reads := hloading ▸ h.reads
      fifo := h.fifo
      slots := h.slots
      fresh := h.fresh }

/-- The Signal of Read frees the slot. -/
theorem Ring.signalSlot (h : Ring live q) (hn : live.Nodup)
    (he : q.Enabled live (.signalSlot c : Op T V)) : Ring live (q.signalSlot c) := by
  obtain ⟨hc,hpassed⟩ := he
  have hm : Moves live q (q.signalSlot c) c .passed .idle :=
    ⟨hc,hpassed,rfl,fun _ _ => rfl,by decide⟩
  obtain ⟨v,hv⟩ := h.exists_val hpassed (by decide) (by decide)
  have hstoring := hm.storing (by simp [Queue.storing,hm.stage_self,hpassed])
  have hbefore : q.loading c = some v := by simp [Queue.loading,hpassed,hv]
  have hafter : (q.signalSlot c).loading c = none := by simp [Queue.loading,hm.stage_self]
  have hperm := filterMap_gain hn hc (fun x hx => (hm.loading_of_ne hx).symm) hafter hbefore
  refine
    { cap := h.cap
      balanced := h.balanced.signalSlot (hm.count hn)
      given := h.given_moves hm (.inl rfl)
      writes := hstoring ▸ h.writes
      reads := ?_
      fifo := h.fifo
      slots := h.slots
      fresh := h.fresh }
  have hreturned : (q.signalSlot c).returned = q.returned ++ [v] := by simp [Queue.signalSlot,hv]
  rw [hreturned,List.append_assoc]
  exact (hperm.symm.append_left q.returned).trans h.reads

/-- A store at a head that no other writer is about to move. -/
theorem Ring.storeValue (h : Ring live q) {v : V} (hn : live.Nodup) (hc : c ∈ live)
    (hclaimed : q.stage c = .claimed) (hv : q.val c = some v)
    (ha : ∀ x ∈ live,q.stage x ≠ .stored) : Ring live (q.storeValue c v) := by
  have hm : Moves live q (q.storeValue c v) c .claimed .stored :=
    ⟨hc,hclaimed,rfl,fun _ _ => rfl,by decide⟩
  have hv' : (q.storeValue c v).val c = some v := hv
  have hnone : q.count live .stored = 0 := count_eq_zero ha
  have hhead : q.h = q.stores.length % q.cap := by
    rw [h.balanced.head,hnone,Nat.sub_zero]
  have hroom := h.balanced.room
  have hpos := (hm.count hn).1
  have hloading := hm.loading (by simp [Queue.loading,hm.stage_self,hclaimed])
  have hbefore : q.storing c = none := by simp [Queue.storing,hclaimed]
  have hafter : (q.storeValue c v).storing c = some (c,v) := by
    simp [Queue.storing,hm.stage_self,hv']
  have hperm := filterMap_gain hn hc (fun x hx => hm.storing_of_ne hx) hbefore hafter
  have hle : q.loads.length ≤ (q.stores.map Prod.snd).length := by
    rw [List.length_map,h.balanced.pending]
    omega
  refine
    { cap := h.cap
      balanced := by
        simp only [Queue.storeValue,List.length_append]
        exact h.balanced.store (hm.count hn) hnone
      given := h.given_moves hm (by simp [hv'])
      writes := ?_
      reads := hloading ▸ h.reads
      fifo := ?_
      slots := ?_
      fresh := h.fresh }
  · refine (hperm.append_left q.written).trans (List.perm_middle.trans ?_)
    exact (h.writes.cons (c,v)).trans (List.perm_append_singleton (c,v) q.stores).symm
  · simp only [Queue.storeValue,Queue.move,List.map_append]
    rw [List.take_append_of_le_length hle]
    exact h.fifo
  · intro k w hk hw
    simp only [Queue.storeValue,Queue.move,List.map_append,List.map_cons,List.map_nil] at hk hw
    simp only [Queue.storeValue,Queue.move]
    rcases Nat.lt_trichotomy k q.stores.length with hlt | heq | hgt
    · have hne : k % q.cap ≠ q.h := by
        rw [hhead]
        exact mod_ne_of_lt hlt (by omega)
      rw [List.getElem?_append_left (by rwa [List.length_map])] at hw
      simp only [Function.update_of_ne hne]
      exact h.slots k w hk hw
    · rw [heq,List.getElem?_append_right (by rw [List.length_map]),List.length_map,
        Nat.sub_self] at hw
      cases hw
      rw [heq,←hhead]
      exact ⟨Function.update_self ..,Function.update_self ..⟩
    · rw [List.getElem?_eq_none (by simp; omega)] at hw
      cases hw

theorem Ring.store (h : Ring live q) (hn : live.Nodup) (he : q.Enabled live (.store c : Op T V))
    (ha : q.Alone live (.store c : Op T V)) : Ring live (q.store c) := by
  obtain ⟨v,hv⟩ := h.exists_val he.2 (by decide) (by decide)
  have hstore : q.store c = q.storeValue c v := by simp only [Queue.store,hv]
  rw [hstore]
  exact h.storeValue hn he.1 he.2 hv ha

/-- A load that no other reader's load waits for. -/
theorem Ring.load (h : Ring live q) (hn : live.Nodup) (he : q.Enabled live (.load c : Op T V))
    (ha : q.Alone live (.load c : Op T V)) : Ring live (q.load c) := by
  obtain ⟨hc,hentitled⟩ := he
  have hm : Moves live q (q.load c) c .entitled .loaded :=
    ⟨hc,hentitled,rfl,fun x hx => Function.update_of_ne hx _ _,by decide⟩
  have hnone : q.count live .loaded = 0 := count_eq_zero ha
  have htail : q.t = q.loads.length % q.cap := by
    rw [h.balanced.tail,hnone,Nat.sub_zero]
  have hroom := h.balanced.room
  have hpending := h.balanced.pending
  have hpos := (hm.count hn).1
  have hlt : q.loads.length < (q.stores.map Prod.snd).length := by
    rw [List.length_map]
    omega
  obtain ⟨hdata,hfresh⟩ := h.slots q.loads.length _ (Nat.le_refl _) (List.getElem?_eq_getElem hlt)
  rw [←htail] at hdata hfresh
  have hstoring := hm.storing (by simp [Queue.storing,hm.stage_self,hentitled])
  have hbefore : q.loading c = none := by simp [Queue.loading,hentitled]
  have hv : (q.load c).val c = some (q.data q.t) := Function.update_self ..
  have hafter : (q.load c).loading c = some (q.data q.t) := by
    simp [Queue.loading,hm.stage_self,hv]
  have hperm := filterMap_gain hn hc (fun x hx => hm.loading_of_ne hx) hbefore hafter
  refine
    { cap := h.cap
      balanced := by
        simp only [Queue.load,List.length_append]
        exact h.balanced.load (hm.count hn) hnone
      given := h.given_moves hm (by simp [hv])
      writes := hstoring ▸ h.writes
      reads := ?_
      fifo := ?_
      slots := ?_
      fresh := ?_ }
  · refine (hperm.append_left q.returned).trans (List.perm_middle.trans ?_)
    exact (h.reads.cons (q.data q.t)).trans (List.perm_append_singleton (q.data q.t) q.loads).symm
  · simp only [Queue.load,Queue.move,List.length_append,List.length_singleton]
    rw [List.take_add_one,←h.fifo,List.getElem?_eq_getElem hlt,hdata]
    rfl
  · intro k w hk hw
    simp only [Queue.load,Queue.move,List.length_append,List.length_singleton] at hk hw
    obtain ⟨hklt,-⟩ := List.getElem?_eq_some_iff.mp hw
    rw [List.length_map] at hklt
    have hne : k % q.cap ≠ q.t := by
      rw [htail]
      exact (mod_ne_of_lt (by omega) (by omega)).symm
    simp only [Queue.load,Queue.move,Function.update_of_ne hne]
    exact h.slots k w (by omega) hw
  · simp only [Queue.load,h.fresh,hfresh]
    rfl

theorem Ring.apply (h : Ring live q) (hn : live.Nodup) {op : Op T V} (he : q.Enabled live op)
    (ha : q.Alone live op) : Ring live (q.apply op) := by
  cases op with
  | waitSlot c v => exact h.waitSlot hn he
  | store c => exact h.store hn he ha
  | advanceHead c => exact h.advanceHead hn he
  | signalItem c => exact h.signalItem hn he
  | waitItem c => exact h.waitItem hn he
  | load c => exact h.load hn he ha
  | advanceTail c => exact h.advanceTail hn he
  | signalSlot c => exact h.signalSlot hn he

end Steps

/-- A queue of any capacity loses nothing in a run of any threads in which no store and no
load comes between the two steps of another one. -/
theorem queue_lossless {live : List T} (hn : live.Nodup) {capacity : ℕ} (hcap : 0 < capacity)
    (data : ℕ → V) (ops : List (Op T V))
    (he : RunMeets Queue.apply (fun q op => q.Enabled live op) (Queue.start capacity data) ops)
    (ha : RunMeets Queue.apply (fun q op => q.Alone live op) (Queue.start capacity data) ops) :
    (ops.foldl Queue.apply (Queue.start capacity data)).Lossless live := by
  have hring : Ring live (ops.foldl Queue.apply (Queue.start capacity data)) :=
    RunMeets.invariant (fun q op h hop => h.apply hn hop.1 hop.2) (ring_start data hcap) (he.and ha)
  exact hring.lossless

/-- One writer after the other, and a reader. -/
def handedOver : List (Op ℕ ℕ) :=
  [.waitSlot 0 10,.waitSlot 1 11,.store 0,.advanceHead 0,.store 1,.advanceHead 1,.signalItem 1,
    .signalItem 0,.waitItem 2,.load 2,.advanceTail 2,.signalSlot 2]

theorem queue_lossless_handedOver :
    (handedOver.foldl Queue.apply (Queue.start 2 fun _ => 0)).Lossless [0,1,2] :=
  queue_lossless (by decide) (by decide) (fun _ => 0) handedOver (by decide) (by decide)

/-- Two writers store before either has moved the head. -/
def overlapping : List (Op ℕ ℕ) :=
  [.waitSlot 0 10,.waitSlot 1 11,.store 0,.store 1,.advanceHead 0,.advanceHead 1,.signalItem 0,
    .signalItem 1,.waitItem 2,.load 2,.advanceTail 2,.signalSlot 2]

theorem overlapping_not_lossless :
    RunMeets Queue.apply (fun q op => q.Enabled [0,1,2] op) (Queue.start 2 fun _ => 0)
      overlapping ∧
    ¬(overlapping.foldl Queue.apply (Queue.start 2 fun _ => 0)).Lossless [0,1,2] := by
  constructor
  · decide
  · intro h
    exact absurd h.fifo (by decide)

end WootOs.MessageQueue
