import Mathlib.Data.Fintype.Card
import Mathlib.Logic.Relation

/-!
# Depth-first walks

A graph is given by names: every vertex lists names, and a name leads to a
vertex or nowhere. The walk from a name enters the vertex it leads to unless
that was entered before, walks from each of the vertex's names in order, and
leaves the vertex. A walk is kept as the list of what happens on it, so that a
program that searches the same graph can be compared with it event by event.
-/

namespace WootOs.DepthFirst

variable {V N : Type}

/-- What happens on a walk. -/
inductive Event (V N : Type) where
  /-- A name of the current vertex is looked at. -/
  | ask (name : N)
  /-- A vertex is entered by a name. -/
  | enter (v : V) (name : N)
  /-- All names of a vertex have been looked at. -/
  | leave (v : V)

/-- The vertex that an event enters. -/
def Event.entry : Event V N → Option V
  | .enter v _ => some v
  | _ => none

/-- The vertices entered so far, in order. -/
def entered (t : List (Event V N)) : List V := t.filterMap Event.entry

@[simp] theorem entered_append (s t : List (Event V N)) :
    entered (s ++ t) = entered s ++ entered t := List.filterMap_append ..

@[simp] theorem entered_ask (p : N) : entered [(.ask p : Event V N)] = [] := rfl

@[simp] theorem entered_enter (v : V) (p : N) : entered [(.enter v p : Event V N)] = [v] := rfl

@[simp] theorem entered_leave (v : V) : entered [(.leave v : Event V N)] = [] := rfl

/-- What was entered stays entered. -/
theorem entered_mono {v : V} {s t : List (Event V N)} (h : s <+: t)
    (hv : v ∈ entered s) : v ∈ entered t := by
  obtain ⟨u,rfl⟩ := h
  rw [entered_append]
  exact List.mem_append_left _ hv

section Walk

variable [DecidableEq V] (target : N → Option V) (names : V → List N)

/-- One step from a vertex to another. -/
def Arrow (v w : V) : Prop := ∃ p ∈ names v,target p = some w

/-- The walk from a name, after what happened before. -/
def visit : ℕ → N → List (Event V N) → List (Event V N)
  | 0,_,t => t
  | fuel + 1,p,t =>
    match target p with
    | none => t
    | some v =>
      if v ∈ entered t then t
      else
        (names v).foldl (fun t q => visit fuel q (t ++ [.ask q])) (t ++ [.enter v p]) ++ [.leave v]

/-- The walks from several names, one after the other. -/
def follow (fuel : ℕ) (ps : List N) (t : List (Event V N)) : List (Event V N) :=
  ps.foldl (fun t q => visit target names fuel q (t ++ [.ask q])) t

variable {target names} {fuel : ℕ} {p : N} {ps : List N} {v w : V} {t : List (Event V N)}

@[simp] theorem follow_nil : follow target names fuel [] t = t := rfl

theorem follow_cons : follow target names fuel (p :: ps) t =
    follow target names fuel ps (visit target names fuel p (t ++ [.ask p])) := rfl

theorem visit_nowhere (h : target p = none) : visit target names fuel p t = t := by
  cases fuel with
  | zero => rfl
  | succ fuel => simp only [visit,h]

theorem visit_found (h : target p = some v) :
    visit target names (fuel + 1) p t =
      if v ∈ entered t then t
      else follow target names fuel (names v) (t ++ [.enter v p]) ++ [.leave v] := by
  simp only [visit,h,follow]

theorem visit_again (h : target p = some v) (hv : v ∈ entered t) :
    visit target names fuel p t = t := by
  cases fuel with
  | zero => rfl
  | succ fuel => exact (visit_found h).trans (if_pos hv)

theorem visit_new (h : target p = some v) (hv : v ∉ entered t) :
    visit target names (fuel + 1) p t =
      follow target names fuel (names v) (t ++ [.enter v p]) ++ [.leave v] :=
  (visit_found h).trans (if_neg hv)

/-- What a walk can do is known from what its events do: a property of traces
that looking at a name, entering a new vertex and leaving keep is kept by a walk. -/
theorem visit_invariant (Inv : List (Event V N) → Prop) (Good : N → Prop)
    (hask : ∀ t p,Inv t → Inv (t ++ [.ask p]))
    (henter : ∀ t p v,Good p → target p = some v → v ∉ entered t → Inv t →
      Inv (t ++ [.enter v p]))
    (hleave : ∀ t v,Inv t → Inv (t ++ [.leave v]))
    (hgood : ∀ p v,Good p → target p = some v → ∀ q ∈ names v,Good q)
    (hp : Good p) (ht : Inv t) : Inv (visit target names fuel p t) := by
  induction fuel generalizing p t with
  | zero => exact ht
  | succ fuel ih =>
    cases hv : target p with
    | none => rwa [visit_nowhere hv]
    | some v =>
      by_cases hin : v ∈ entered t
      · rwa [visit_again hv hin]
      · rw [visit_new hv hin]
        refine hleave _ v ?_
        have hrest : ∀ ps,(∀ q ∈ ps,Good q) → ∀ t,Inv t →
            Inv (follow target names fuel ps t) := by
          intro ps
          induction ps with
          | nil => exact fun _ t ht => ht
          | cons q ps ihps =>
            intro hps t ht
            exact ihps (fun r hr => hps r (List.mem_cons_of_mem q hr)) _
              (ih (hps q List.mem_cons_self) (hask t q ht))
        exact hrest _ (hgood p v hp hv) _ (henter t p v hp hv hin ht)

/-- A walk only adds to what happened before. -/
theorem prefix_visit : t <+: visit target names fuel p t :=
  visit_invariant (t <+: ·) (fun _ => True)
    (fun u _ hu => hu.trans (List.prefix_append u _))
    (fun u _ _ _ _ _ hu => hu.trans (List.prefix_append u _))
    (fun u _ hu => hu.trans (List.prefix_append u _))
    (fun _ _ _ _ _ _ => trivial) trivial List.prefix_rfl

/-- So do several. -/
theorem prefix_follow : t <+: follow target names fuel ps t := by
  induction ps generalizing t with
  | nil => exact List.prefix_rfl
  | cons p ps ih =>
    rw [follow_cons]
    exact (List.prefix_append t _).trans (prefix_visit.trans ih)

/-- No vertex is entered twice. -/
theorem nodup_entered_visit (h : (entered t).Nodup) :
    (entered (visit target names fuel p t)).Nodup := by
  refine visit_invariant (fun t => (entered t).Nodup) (fun _ => True) ?_ ?_ ?_
    (fun _ _ _ _ _ _ => trivial) trivial h
  · intro t p ht
    rwa [entered_append,entered_ask,List.append_nil]
  · intro t p v _ _ hv ht
    rw [entered_append,entered_enter]
    exact ht.append (List.nodup_singleton v) (by simpa using hv)
  · intro t v ht
    rwa [entered_append,entered_leave,List.append_nil]

/-- Every entered vertex has a property that arrows keep. -/
theorem forall_entered_visit {P : V → Prop} (harrow : ∀ v w,P v → Arrow target names v w → P w)
    (hp : ∀ v,target p = some v → P v) (ht : ∀ v ∈ entered t,P v) :
    ∀ v ∈ entered (visit target names fuel p t),P v := by
  refine visit_invariant (fun t => ∀ v ∈ entered t,P v)
    (fun p => ∀ v,target p = some v → P v) ?_ ?_ ?_ ?_ hp ht
  · intro t p ht v hv
    rw [entered_append,entered_ask,List.append_nil] at hv
    exact ht v hv
  · intro t p v hp hv _ ht w hw
    rw [entered_append,entered_enter,List.mem_append,List.mem_singleton] at hw
    obtain hw | rfl := hw
    · exact ht w hw
    · exact hp w hv
  · intro t v ht w hw
    rw [entered_append,entered_leave,List.append_nil] at hw
    exact ht w hw
  · intro p v hp hv q hq w hw
    exact harrow v w (hp v hv) ⟨q,hq,hw⟩

end Walk

/-- What was entered since a trace has all its arrows' ends entered. -/
def Closes (target : N → Option V) (names : V → List N) (s t : List (Event V N)) : Prop :=
  ∀ v ∈ entered t,v ∉ entered s → ∀ w,Arrow target names v w → w ∈ entered t

section Closes

variable {target : N → Option V} {names : V → List N} {s t u : List (Event V N)}

theorem Closes.refl : Closes target names t t := fun _ h hn => absurd h hn

theorem Closes.trans (h : Closes target names s t) (h' : Closes target names t u)
    (hpre : t <+: u) : Closes target names s u := by
  intro v hv hn w harrow
  by_cases hmid : v ∈ entered t
  · exact entered_mono hpre (h v hmid hn w harrow)
  · exact h' v hv hmid w harrow

end Closes

section Finite

variable [DecidableEq V] [Fintype V]

/-- How many vertices are not entered yet. -/
def unentered (t : List (Event V N)) : ℕ := (Finset.univ.filter (· ∉ entered t)).card

variable {target : N → Option V} {names : V → List N} {fuel : ℕ} {p : N} {ps : List N} {v w : V}
  {s t : List (Event V N)}

theorem unentered_le (h : s <+: t) : unentered t ≤ unentered s := by
  refine Finset.card_le_card fun v hv => ?_
  simp only [Finset.mem_filter,Finset.mem_univ,true_and] at hv ⊢
  exact fun hin => hv (entered_mono h hin)

theorem unentered_enter (h : v ∉ entered t) : unentered (t ++ [.enter v p]) < unentered t := by
  refine Finset.card_lt_card (Finset.ssubset_iff_subset_ne.mpr ⟨fun w hw => ?_,fun heq => ?_⟩)
  · simp only [Finset.mem_filter,Finset.mem_univ,true_and] at hw ⊢
    exact fun hin => hw (entered_mono (List.prefix_append t _) hin)
  · have hv : v ∈ Finset.univ.filter (· ∉ entered (t ++ [.enter v p])) :=
      heq ▸ (by simpa using h)
    simp at hv

theorem unentered_pos (h : v ∉ entered t) : 0 < unentered t :=
  Finset.card_pos.mpr ⟨v,by simpa using h⟩

/-- If a walk enters what its name leads to and goes on along every arrow, then
so do several. -/
theorem closes_follow (ps : List N) (hvisit : ∀ q (t : List (Event V N)),unentered t ≤ fuel →
      (∀ v,target q = some v → v ∈ entered (visit target names fuel q t)) ∧
        Closes target names t (visit target names fuel q t))
    (ht : unentered t ≤ fuel) :
    (∀ q ∈ ps,∀ v,target q = some v → v ∈ entered (follow target names fuel ps t)) ∧
      Closes target names t (follow target names fuel ps t) := by
  induction ps generalizing t with
  | nil => exact ⟨fun q hq => (nomatch hq),.refl⟩
  | cons q ps ih =>
    have hask : entered (t ++ [(.ask q : Event V N)]) = entered t := by simp
    have hle : unentered (t ++ [(.ask q : Event V N)]) ≤ fuel :=
      (unentered_le (List.prefix_append t _)).trans ht
    obtain ⟨hq,hcloses⟩ := hvisit q _ hle
    obtain ⟨hps,hrest⟩ := ih ((unentered_le prefix_visit).trans hle)
    rw [follow_cons]
    refine ⟨fun r hr w hw => ?_,Closes.trans (fun v hv hn => ?_) hrest prefix_follow⟩
    · obtain rfl | hr := List.mem_cons.mp hr
      · exact entered_mono prefix_follow (hq w hw)
      · exact hps r hr w hw
    · exact hcloses v hv (hask ▸ hn)

/-- With a step for every vertex not entered yet, a walk enters what its name
leads to and goes on along every arrow. -/
theorem closes_visit (hfuel : unentered t ≤ fuel) :
    (∀ v,target p = some v → v ∈ entered (visit target names fuel p t)) ∧
      Closes target names t (visit target names fuel p t) := by
  induction fuel generalizing p t with
  | zero =>
    refine ⟨fun v _ => ?_,.refl⟩
    by_contra hv
    have hpos := unentered_pos hv
    simp only [visit] at hpos
    omega
  | succ fuel ih =>
    cases hv : target p with
    | none =>
      rw [visit_nowhere hv]
      exact ⟨fun v h => (nomatch h),.refl⟩
    | some v =>
      by_cases hin : v ∈ entered t
      · rw [visit_again hv hin]
        exact ⟨fun w hw => Option.some.inj hw ▸ hin,.refl⟩
      · have hless : unentered (t ++ [.enter v p]) < unentered t := unentered_enter hin
        have hleft : unentered (t ++ [.enter v p]) ≤ fuel := by omega
        obtain ⟨hnames,hcloses⟩ := closes_follow (names v) (fun q t => ih) hleft
        rw [visit_new hv hin]
        simp only [Closes,entered_append,entered_leave,List.append_nil]
        refine ⟨fun w hw => ?_,fun w hw hn u harrow => ?_⟩
        · obtain rfl := Option.some.inj hw
          exact entered_mono prefix_follow (by simp)
        · by_cases hwv : w = v
          · obtain ⟨q,hq,hu⟩ := harrow
            exact hnames q (hwv ▸ hq) u hu
          · exact hcloses w hw (by simp [hn,hwv]) u harrow

variable (target names) in
/-- The whole walk from a name. -/
def walk (p : N) : List (Event V N) := visit target names (Fintype.card V) p []

/-- A walk enters exactly what can be reached from where its name leads. -/
theorem mem_entered_walk : v ∈ entered (walk target names p) ↔
    ∃ r,target p = some r ∧ Relation.ReflTransGen (Arrow target names) r v := by
  have hclosed : (∀ v,target p = some v → v ∈ entered (walk target names p)) ∧
      Closes target names [] (walk target names p) := closes_visit (Finset.card_le_univ _)
  constructor
  · refine fun hv => forall_entered_visit
      (P := fun v => ∃ r,target p = some r ∧ Relation.ReflTransGen (Arrow target names) r v)
      ?_ ?_ (fun v hv => absurd hv List.not_mem_nil) v hv
    · rintro v w ⟨r,hr,hreach⟩ harrow
      exact ⟨r,hr,hreach.tail harrow⟩
    · exact fun v hv => ⟨v,hv,.refl⟩
  · rintro ⟨r,hr,hreach⟩
    induction hreach with
    | refl => exact hclosed.1 r hr
    | tail _ harrow ih => exact hclosed.2 _ ih List.not_mem_nil _ harrow

theorem nodup_entered_walk : (entered (walk target names p)).Nodup :=
  nodup_entered_visit List.nodup_nil

end Finite

end WootOs.DepthFirst
