import Mathlib.Data.List.Flatten
import Mathlib.Data.List.Perm.Basic
import WootOs.DentryCache

/-!
# The counts of dentries and inodes

Between two calls each reference to a dentry comes from a child, a process or a
file system. During a call some are in hand: a call that gets a reference takes
it in hand, and one that puts it drops it. So each function says what it does to
the references in hand, and a call ends with none.
-/

namespace WootOs.DentryCache

open ReferenceCounts Runs

set_option linter.unusedSectionVars false

/-- What does not depend on the counts. -/
structure Arranged (Good : INode → Name → ℕ → Prop) (s : FileSystem) : Prop where
  /-- Dentries not made yet are not in the cache. -/
  dentry_lt : ∀ d ∈ s.dentryCache,d < s.nextDEntry
  /-- Inodes not read yet are not in the cache. -/
  inode_lt : ∀ i ∈ s.inodeCache,i < s.nextINode
  /-- A parent has one cached dentry of a name. -/
  oneName : ∀ d ∈ s.dentryCache,∀ e ∈ s.dentryCache,(s.dentries d).parent ≠ none →
    (s.dentries d).parent = (s.dentries e).parent → (s.dentries d).name = (s.dentries e).name →
    d = e
  /-- A file system has one cached inode of a number. -/
  oneINode : ∀ i ∈ s.inodeCache,∀ j ∈ s.inodeCache,s.inodes i = s.inodes j → i = j
  /-- A dentry without a parent is the root of its file system. -/
  rooted : ∀ d ∈ s.dentryCache,(s.dentries d).parent = none →
    s.roots[(s.inodes (s.dentries d).inode).fs]? = some d
  /-- A dentry has an inode of the file system of its parent, and one that was looked up. -/
  linked : ∀ d ∈ s.dentryCache,∀ p,(s.dentries d).parent = some p →
    (s.inodes (s.dentries d).inode).fs = (s.inodes (s.dentries p).inode).fs ∧
      Good (s.inodes (s.dentries p).inode) (s.dentries d).name
        (s.inodes (s.dentries d).inode).number

/-- The references to dentries and inodes are counted, with those that are in hand. -/
structure Accounted (Good : INode → Name → ℕ → Prop) (s : FileSystem) (hand inodeHand : List ℕ) :
    Prop extends Arranged Good s where
  /-- The references to dentries. -/
  dentries : Counted 1 s.dentryCount s.dentryCache (s.holds ++ hand)
  /-- The references to inodes. -/
  inodes : Counted 0 s.inodeCount s.inodeCache (s.inodeUses ++ inodeHand)

/-- No dentry or inode is new. -/
structure Shrinks (s s' : FileSystem) : Prop where
  /-- The dentries have their fields. -/
  dentries : s'.dentries = s.dentries
  /-- The inodes have their fields. -/
  inodes : s'.inodes = s.inodes
  /-- The roots are the same. -/
  roots : s'.roots = s.roots
  /-- No dentry has been made. -/
  nextDEntry : s'.nextDEntry = s.nextDEntry
  /-- No inode has been read. -/
  nextINode : s'.nextINode = s.nextINode
  /-- No dentry is new in the cache. -/
  dentryCache : ∀ d ∈ s'.dentryCache,d ∈ s.dentryCache
  /-- No inode is new in the cache. -/
  inodeCache : ∀ i ∈ s'.inodeCache,i ∈ s.inodeCache

/-- The processes and the file systems hold what they held. -/
structure Kept (s s' : FileSystem) : Prop where
  /-- The processes are the same. -/
  processes : s'.processes = s.processes
  /-- The roots are the same. -/
  roots : s'.roots = s.roots

variable {Good : INode → Name → ℕ → Prop} {s s' s'' : FileSystem} {d i n : ℕ}
variable {hand hand' inodeHand : List ℕ} {inode : INode} {c : ℤ}

theorem Kept.refl (s : FileSystem) : Kept s s := ⟨rfl,rfl⟩

theorem Kept.trans (h : Kept s s') (h' : Kept s' s'') : Kept s s'' :=
  ⟨h'.processes.trans h.processes,h'.roots.trans h.roots⟩

/-- What does not depend on the counts stays when nothing is new. -/
theorem Arranged.shrink (h : Arranged Good s) (hs : Shrinks s s') : Arranged Good s' := by
  have hd := hs.dentryCache
  have hi := hs.inodeCache
  constructor
  · intro d hin
    rw [hs.nextDEntry]
    exact h.dentry_lt d (hd d hin)
  · intro i hin
    rw [hs.nextINode]
    exact h.inode_lt i (hi i hin)
  · rw [hs.dentries]
    exact fun d hin e hin' => h.oneName d (hd d hin) e (hd e hin')
  · rw [hs.inodes]
    exact fun i hin j hin' => h.oneINode i (hi i hin) j (hi j hin')
  · rw [hs.dentries,hs.inodes,hs.roots]
    exact fun d hin => h.rooted d (hd d hin)
  · rw [hs.dentries,hs.inodes]
    exact fun d hin => h.linked d (hd d hin)

namespace Accounted

/-- The dentry of a reference in hand is in the cache. -/
theorem of_hand (h : Accounted Good s hand inodeHand) (hd : d ∈ hand) : d ∈ s.dentryCache :=
  (h.dentries.listed d).mpr (List.mem_append_right _ hd)

/-- A dentry that another, a process or a file system holds is in the cache. -/
theorem of_holds (h : Accounted Good s hand inodeHand) (hd : d ∈ s.holds) : d ∈ s.dentryCache :=
  (h.dentries.listed d).mpr (List.mem_append_left _ hd)

/-- The parent of a dentry in the cache is in the cache. -/
theorem of_parent (h : Accounted Good s hand inodeHand) {p : ℕ} (hd : d ∈ s.dentryCache)
    (hp : (s.dentries d).parent = some p) : p ∈ s.dentryCache :=
  h.of_holds (List.mem_append_left _ (List.mem_filterMap.mpr ⟨d,hd,hp⟩))

/-- The inode of a dentry in the cache is in the cache. -/
theorem inode_mem (h : Accounted Good s hand inodeHand) (hd : d ∈ s.dentryCache) :
    (s.dentries d).inode ∈ s.inodeCache :=
  (h.inodes.listed _).mpr (List.mem_append_left _ (List.mem_map_of_mem hd))

/-- A dentry in the cache has a count. -/
theorem dentryCount (h : Accounted Good s hand inodeHand) (hd : d ∈ s.dentryCache) :
    ∃ c,s.dentryCount d = some c :=
  Option.isSome_iff_exists.mp (h.dentries.isSome_iff.mpr ((h.dentries.listed d).mp hd))

/-- The inode of a dentry in the cache can be used. -/
theorem inodeOf (h : Accounted Good s hand inodeHand) (hd : d ∈ s.dentryCache) :
    s.inodeOf d = some (s.inodes (s.dentries d).inode) := by
  obtain ⟨c,hc⟩ := h.dentryCount hd
  obtain ⟨c',hc'⟩ := Option.isSome_iff_exists.mp
    (h.inodes.isSome_iff.mpr ((h.inodes.listed _).mp (h.inode_mem hd)))
  simp only [FileSystem.inodeOf,hc,hc']

/-- One more reference to a dentry in the cache is in hand. -/
theorem addReference (h : Accounted Good s hand inodeHand) (hd : d ∈ s.dentryCache) :
    Accounted Good (s.addReference d) (d :: hand) inodeHand := by
  obtain ⟨c,hc⟩ := h.dentryCount hd
  refine ⟨h.toArranged.shrink ⟨rfl,rfl,rfl,rfl,rfl,fun _ hin => hin,fun _ hin => hin⟩,?_,h.inodes⟩
  have hget := h.dentries.get hc
  rw [FileSystem.addReference,hc]
  exact hget.congr fun o => List.perm_middle.count_eq o

/-- The references of the processes, changed together with those in hand. -/
theorem setProcesses (h : Accounted Good s hand inodeHand) (processes : List Process)
    (hcount : ∀ o,(processes.flatMap Process.holds).count o + hand'.count o =
      (s.processes.flatMap Process.holds).count o + hand.count o) :
    Accounted Good { s with processes := processes } hand' inodeHand := by
  refine ⟨h.toArranged.shrink ⟨rfl,rfl,rfl,rfl,rfl,fun _ hin => hin,fun _ hin => hin⟩,?_,h.inodes⟩
  refine h.dentries.congr fun o => ?_
  have := hcount o
  simp only [FileSystem.holds,FileSystem.parents,List.count_append] at this ⊢
  omega

/-- An inode in hand is put. -/
theorem putINode (h : Accounted Good s hand (i :: inodeHand)) :
    ∃ s',s.putINode i = some s' ∧ Accounted Good s' hand inodeHand ∧
      s'.dentryCache = s.dentryCache ∧ Kept s s' := by
  have hcounted : Counted 0 s.inodeCount s.inodeCache (i :: (s.inodeUses ++ inodeHand)) :=
    h.inodes.congr fun o => List.perm_middle.symm.count_eq o
  obtain ⟨c,hc⟩ := Option.isSome_iff_exists.mp (hcounted.isSome_iff.mpr List.mem_cons_self)
  have hlast := hcounted.last_iff hc
  have hpos : 0 < c := by
    have hnum := (hcounted.eq_of_count hc).2
    rw [List.count_cons_self] at hnum
    omega
  by_cases hin : i ∈ s.inodeUses ++ inodeHand
  · have hne : ¬c - 1 ≤ 0 := by
      intro hle
      exact hlast.mpr (by omega) hin
    have heq : s.putINode i =
        some { s with inodeCount := Function.update s.inodeCount i (some (c - 1)) } := by
      simp only [FileSystem.putINode,hc,if_pos hpos,if_neg hne]
    refine ⟨_,heq,?_,rfl,rfl,rfl⟩
    exact ⟨h.toArranged.shrink ⟨rfl,rfl,rfl,rfl,rfl,fun _ hin => hin,fun _ hin => hin⟩,
      h.dentries,hcounted.put_shared hin hc⟩
  · have hle : c - 1 ≤ 0 := by
      have := hlast.mp hin
      omega
    have heq : s.putINode i = some { s with
        inodeCount := Function.update s.inodeCount i none
        inodeCache := s.inodeCache.erase i } := by
      simp only [FileSystem.putINode,hc,if_pos hpos,if_pos hle]
    refine ⟨_,heq,?_,rfl,rfl,rfl⟩
    exact ⟨h.toArranged.shrink ⟨rfl,rfl,rfl,rfl,rfl,fun _ hin => hin,
      fun _ hin => List.mem_of_mem_erase hin⟩,h.dentries,hcounted.put_last hin⟩

/-- A dentry that is deleted leaves its references in hand. -/
theorem release (h : Accounted Good s (d :: hand) inodeHand) (hc : s.dentryCount d = some 0) :
    Accounted Good (s.release d) ((s.dentries d).parent.toList ++ hand)
      ((s.dentries d).inode :: inodeHand) := by
  have hin : d ∈ s.dentryCache := h.of_hand List.mem_cons_self
  have hcounted : Counted 1 s.dentryCount s.dentryCache (d :: (s.holds ++ hand)) :=
    h.dentries.congr fun o => List.perm_middle.symm.count_eq o
  have hperm := List.perm_cons_erase hin
  refine ⟨h.toArranged.shrink ⟨rfl,rfl,rfl,rfl,rfl,fun _ hin => List.mem_of_mem_erase hin,
    fun _ hin => hin⟩,?_,?_⟩
  · refine (hcounted.put_last ((hcounted.last_iff hc).mpr rfl)).congr fun o => ?_
    have hparents := (hperm.filterMap fun d => (s.dentries d).parent).count_eq o
    simp only [FileSystem.holds,FileSystem.parents,FileSystem.release,List.count_append]
      at hparents ⊢
    rw [hparents]
    cases hp : (s.dentries d).parent with
    | none => simp [hp]
    | some p => simp [hp,List.count_cons]; omega
  · refine h.inodes.congr fun o => ?_
    have huses := (hperm.map fun d => (s.dentries d).inode).count_eq o
    simp only [FileSystem.inodeUses,FileSystem.release,List.count_append,List.map_cons,
      List.count_cons] at huses ⊢
    omega

/-- A dentry in hand is put, and with the last reference to it its own references. -/
theorem putUpTo (fuel : ℕ) (h : Accounted Good s (d :: hand) inodeHand)
    (hfuel : s.dentryCache.length < fuel) :
    ∃ s',FileSystem.putUpTo fuel s d = some s' ∧ Accounted Good s' hand inodeHand ∧
      Kept s s' := by
  induction fuel generalizing s d with
  | zero => omega
  | succ fuel ih =>
    have hin : d ∈ s.dentryCache := h.of_hand List.mem_cons_self
    obtain ⟨c,hc⟩ := h.dentryCount hin
    have hcounted : Counted 1 s.dentryCount s.dentryCache (d :: (s.holds ++ hand)) :=
      h.dentries.congr fun o => List.perm_middle.symm.count_eq o
    by_cases hzero : c = 0
    · subst hzero
      obtain ⟨s₁,hput,hacc,hcache,hkept⟩ := (h.release hc).putINode
      have hlen : s₁.dentryCache.length < fuel := by
        rw [hcache,FileSystem.release,List.length_erase_of_mem hin]
        have := List.length_pos_of_mem hin
        omega
      cases hp : (s.dentries d).parent with
      | none =>
        rw [hp] at hacc
        exact ⟨s₁,by simp only [FileSystem.putUpTo,hc,if_pos,hput,hp],hacc,
          hkept.processes,hkept.roots⟩
      | some p =>
        rw [hp] at hacc
        obtain ⟨s₂,hput₂,hacc₂,hkept₂⟩ := ih hacc hlen
        exact ⟨s₂,by simp only [FileSystem.putUpTo,hc,if_pos,hput,hp,hput₂],hacc₂,
          Kept.trans ⟨hkept.processes,hkept.roots⟩ hkept₂⟩
    · have hshared : d ∈ s.holds ++ hand := by
        by_contra hnot
        exact hzero ((hcounted.last_iff hc).mp hnot)
      have heq : FileSystem.putUpTo (fuel + 1) s d =
          some { s with dentryCount := Function.update s.dentryCount d (some (c - 1)) } := by
        simp only [FileSystem.putUpTo,hc,if_neg hzero]
      refine ⟨_,heq,?_,rfl,rfl⟩
      exact ⟨h.toArranged.shrink ⟨rfl,rfl,rfl,rfl,rfl,fun _ hin => hin,fun _ hin => hin⟩,
        hcounted.put_shared hshared hc,h.inodes⟩

/-- PutDEntry drops a reference in hand. -/
theorem putDEntry (h : Accounted Good s (d :: hand) inodeHand) :
    ∃ s',s.putDEntry d = some s' ∧ Accounted Good s' hand inodeHand ∧ Kept s s' :=
  h.putUpTo _ (Nat.lt_succ_self _)

/-- One more reference to an inode in the cache is in hand. -/
theorem addINodeReference (h : Accounted Good s hand inodeHand) (hi : i ∈ s.inodeCache) :
    Accounted Good (s.addINodeReference i) hand (i :: inodeHand) := by
  obtain ⟨c,hc⟩ := Option.isSome_iff_exists.mp
    (h.inodes.isSome_iff.mpr ((h.inodes.listed i).mp hi))
  refine ⟨h.toArranged.shrink ⟨rfl,rfl,rfl,rfl,rfl,fun _ hin => hin,fun _ hin => hin⟩,
    h.dentries,?_⟩
  have hget := h.inodes.get hc
  rw [FileSystem.addINodeReference,hc]
  exact hget.congr fun o => List.perm_middle.count_eq o

/-- The inodes of the cache stay when another one is read. -/
theorem readINode_inodes (h : Accounted Good s hand inodeHand) (inode : INode)
    (hi : i ∈ s.inodeCache) : (s.readINode inode).inodes i = s.inodes i :=
  Function.update_of_ne (Nat.ne_of_lt (h.inode_lt i hi)) _ _

/-- An inode that is not in the cache is read, and its reference is in hand. -/
theorem readINode (h : Accounted Good s hand inodeHand)
    (hnot : ∀ i ∈ s.inodeCache,s.inodes i ≠ inode) :
    Accounted Good (s.readINode inode) hand (s.nextINode :: inodeHand) := by
  have hnew : s.nextINode ∉ s.inodeCache := fun hin => Nat.lt_irrefl _ (h.inode_lt _ hin)
  have hself : (s.readINode inode).inodes s.nextINode = inode := Function.update_self ..
  have hused (d : ℕ) (hd : d ∈ s.dentryCache) := h.readINode_inodes inode (h.inode_mem hd)
  refine ⟨⟨h.dentry_lt,?_,h.oneName,?_,?_,?_⟩,h.dentries,?_⟩
  · intro j hj
    rcases List.mem_cons.mp hj with rfl | hj
    · exact Nat.lt_succ_self _
    · exact Nat.lt_succ_of_lt (h.inode_lt j hj)
  · intro j hj k hk hjk
    rcases List.mem_cons.mp hj with rfl | hj <;> rcases List.mem_cons.mp hk with rfl | hk
    · rfl
    · rw [hself,h.readINode_inodes inode hk] at hjk
      exact absurd hjk.symm (hnot k hk)
    · rw [hself,h.readINode_inodes inode hj] at hjk
      exact absurd hjk (hnot j hj)
    · rw [h.readINode_inodes inode hj,h.readINode_inodes inode hk] at hjk
      exact h.oneINode j hj k hk hjk
  · intro d hd hp
    have hroot := h.rooted d hd hp
    rw [← hused d hd] at hroot
    exact hroot
  · intro d hd p hp
    have hlink := h.linked d hd p hp
    rw [← hused d hd,← hused p (h.of_parent hd hp)] at hlink
    exact hlink
  · refine (h.inodes.new (fun hin => hnew ((h.inodes.listed _).mpr hin)) rfl).congr fun o => ?_
    exact List.perm_middle.count_eq o

/-- GetINode takes a reference to the inode in hand. -/
theorem getINode (h : Accounted Good s hand inodeHand) (inode : INode) :
    Accounted Good (s.getINode inode).1 hand ((s.getINode inode).2 :: inodeHand) := by
  cases hfind : s.inodeCache.find? fun i => s.inodes i = inode with
  | some i =>
    simp only [FileSystem.getINode,hfind]
    exact h.addINodeReference (List.mem_of_find?_eq_some hfind)
  | none =>
    simp only [FileSystem.getINode,hfind]
    refine h.readINode fun j hj => ?_
    have := List.find?_eq_none.mp hfind j hj
    simpa using this

/-- GetINode gives the inode that it is asked for. -/
theorem getINode_inode (inode : INode) : (s.getINode inode).1.inodes (s.getINode inode).2 = inode := by
  cases hfind : s.inodeCache.find? fun i => s.inodes i = inode with
  | some i =>
    simp only [FileSystem.getINode,hfind]
    have := List.find?_some hfind
    exact of_decide_eq_true this
  | none =>
    simp only [FileSystem.getINode,hfind]
    exact Function.update_self ..

/-- GetINode leaves the inodes of the cache as they are. -/
theorem getINode_inodes (h : Accounted Good s hand inodeHand) (inode : INode)
    (hi : i ∈ s.inodeCache) : (s.getINode inode).1.inodes i = s.inodes i := by
  cases hfind : s.inodeCache.find? fun i => s.inodes i = inode with
  | some j => simp only [FileSystem.getINode,hfind]; rfl
  | none =>
    simp only [FileSystem.getINode,hfind]
    exact h.readINode_inodes inode hi

/-- GetINode changes nothing but the inodes. -/
theorem getINode_frame (inode : INode) :
    (s.getINode inode).1.dentries = s.dentries ∧
      (s.getINode inode).1.dentryCache = s.dentryCache ∧
      (s.getINode inode).1.nextDEntry = s.nextDEntry ∧ Kept s (s.getINode inode).1 := by
  cases hfind : s.inodeCache.find? fun i => s.inodes i = inode with
  | some i => simp only [FileSystem.getINode,hfind]; exact ⟨rfl,rfl,rfl,rfl,rfl⟩
  | none => simp only [FileSystem.getINode,hfind]; exact ⟨rfl,rfl,rfl,rfl,rfl⟩

/-- A new dentry takes over the references to its parent and its inode. The reference to
it is that of its file system or in hand. -/
theorem construct {name : Name} {parent : Option ℕ} {roots : List ℕ}
    (h : Accounted Good s (parent.toList ++ hand) (i :: inodeHand))
    (hcount : ∀ o,(roots ++ hand').count o = (s.nextDEntry :: (s.roots ++ hand)).count o)
    (hkeep : ∀ (fs d : ℕ),s.roots[fs]? = some d → roots[fs]? = some d)
    (hroot : parent = none → roots[(s.inodes i).fs]? = some s.nextDEntry)
    (hname : ∀ d ∈ s.dentryCache,parent ≠ none → (s.dentries d).parent = parent →
      (s.dentries d).name ≠ name)
    (hlink : ∀ p,parent = some p → (s.inodes i).fs = (s.inodes (s.dentries p).inode).fs ∧
      Good (s.inodes (s.dentries p).inode) name (s.inodes i).number) :
    Accounted Good { s.construct ⟨parent,name,i⟩ with roots := roots } hand' inodeHand := by
  have hnew : s.nextDEntry ∉ s.dentryCache := fun hin => Nat.lt_irrefl _ (h.dentry_lt _ hin)
  have hself : Function.update s.dentries s.nextDEntry ⟨parent,name,i⟩ s.nextDEntry =
      ⟨parent,name,i⟩ := Function.update_self ..
  have hother (d : ℕ) (hd : d ∈ s.dentryCache) :
      Function.update s.dentries s.nextDEntry ⟨parent,name,i⟩ d = s.dentries d :=
    Function.update_of_ne (Nat.ne_of_lt (h.dentry_lt d hd)) _ _
  have hparent (p : ℕ) (hp : parent = some p) : p ∈ s.dentryCache :=
    h.of_hand (List.mem_append_left _ (hp ▸ List.mem_cons_self))
  have hparents : s.dentryCache.filterMap (fun d =>
      (Function.update s.dentries s.nextDEntry ⟨parent,name,i⟩ d).parent) = s.parents :=
    List.filterMap_congr fun d hd => by rw [hother d hd]
  have huses : s.dentryCache.map (fun d =>
      (Function.update s.dentries s.nextDEntry ⟨parent,name,i⟩ d).inode) = s.inodeUses :=
    List.map_congr_left fun d hd => by rw [hother d hd]
  refine ⟨⟨?_,h.inode_lt,?_,h.oneINode,?_,?_⟩,?_,?_⟩
  · intro d hd
    rcases List.mem_cons.mp hd with rfl | hd
    · exact Nat.lt_succ_self _
    · exact Nat.lt_succ_of_lt (h.dentry_lt d hd)
  · intro d hd e he hp hpe hn
    simp only [FileSystem.construct] at hp hpe hn
    rcases List.mem_cons.mp hd with rfl | hd <;> rcases List.mem_cons.mp he with rfl | he
    · rfl
    · rw [hself,hother e he] at hpe hn
      rw [hself] at hp
      exact absurd hn.symm (hname e he hp hpe.symm)
    · rw [hself,hother d hd] at hpe hn
      rw [hother d hd,hpe] at hp
      exact absurd hn (hname d hd hp hpe)
    · rw [hother d hd,hother e he] at hpe hn
      rw [hother d hd] at hp
      exact h.oneName d hd e he hp hpe hn
  · intro d hd hp
    simp only [FileSystem.construct] at hp ⊢
    rcases List.mem_cons.mp hd with rfl | hd
    · rw [hself] at hp ⊢
      exact hroot hp
    · rw [hother d hd] at hp ⊢
      exact hkeep _ _ (h.rooted d hd hp)
  · intro d hd p hp
    simp only [FileSystem.construct] at hp ⊢
    rcases List.mem_cons.mp hd with rfl | hd
    · rw [hself] at hp ⊢
      rw [hother p (hparent p hp)]
      exact hlink p hp
    · rw [hother d hd] at hp ⊢
      rw [hother p (h.of_parent hd hp)]
      exact h.linked d hd p hp
  · have hfresh : s.nextDEntry ∉ s.holds ++ (parent.toList ++ hand) :=
      fun hin => hnew ((h.dentries.listed _).mpr hin)
    refine (h.dentries.new hfresh (by decide : (0 : ℤ) = 1 - 1)).congr fun o => ?_
    have hrefs := hcount o
    simp only [FileSystem.holds,FileSystem.parents,FileSystem.construct,List.filterMap_cons,hself,
      hparents,List.count_append,List.count_cons] at hrefs ⊢
    cases parent with
    | none =>
      simp only [Option.toList_none,List.count_nil]
      omega
    | some p =>
      simp only [Option.toList_some,List.count_cons,List.count_nil]
      omega
  · refine h.inodes.congr fun o => ?_
    simp only [FileSystem.inodeUses,FileSystem.construct,List.map_cons,hself,huses,
      List.count_append,List.count_cons]
    omega

/-- The order of the references in hand is not important. -/
theorem perm (h : Accounted Good s hand inodeHand) (hperm : hand'.Perm hand) :
    Accounted Good s hand' inodeHand := by
  refine ⟨h.toArranged,h.dentries.congr fun o => ?_,h.inodes⟩
  rw [List.count_append,List.count_append,hperm.count_eq o]

/-- GetDEntry of a dentry in the cache. -/
theorem getDEntry_eq (hd : d ∈ s.dentryCache) : s.getDEntry d = (s.addReference d,some d) := by
  rw [FileSystem.getDEntry,if_pos hd]

end Accounted

/-- A call ends, with a dentry that is in hand or with none. -/
def Gives (Good : INode → Name → ℕ → Prop) (s : FileSystem) (hand inodeHand : List ℕ)
    (out : Option (FileSystem × Option ℕ)) : Prop :=
  ∃ s' r,out = some (s',r) ∧ Accounted Good s' (r.toList ++ hand) inodeHand ∧ Kept s s'

/-- What a path looks up is good, as far as a path can look it up. -/
def Finds (Good : INode → Name → ℕ → Prop) (disk : Disk) : Prop :=
  ∀ inode name number,name ≠ dot → name ≠ dotDot → disk.lookup inode name = some number →
    Good inode name number

theorem Gives.of_kept {out : Option (FileSystem × Option ℕ)} (hkept : Kept s s')
    (h : Gives Good s' hand inodeHand out) : Gives Good s hand inodeHand out := by
  obtain ⟨t,r,heq,hacc,hk⟩ := h
  exact ⟨t,r,heq,hacc,hkept.trans hk⟩

namespace Accounted

variable {disk : Disk}

/-- A name that no cached dentry has is looked up on the volume, and its dentry made. -/
theorem makeDEntry {p : ℕ} {name : Name} (h : Accounted Good s hand inodeHand)
    (hp : p ∈ s.dentryCache)
    (hnot : ∀ d ∈ s.dentryCache,(s.dentries d).parent = some p → (s.dentries d).name ≠ name)
    (hgood : Good (s.inodes (s.dentries p).inode) name n) :
    let got := s.getINode ⟨(s.inodes (s.dentries p).inode).fs,n⟩
    Accounted Good (got.1.newDEntry name (some p) got.2).1
        ((got.1.newDEntry name (some p) got.2).2 :: hand) inodeHand ∧
      Kept s (got.1.newDEntry name (some p) got.2).1 := by
  intro got
  obtain ⟨hdentries,hcache,-,hkept⟩ :=
    getINode_frame (s := s) ⟨(s.inodes (s.dentries p).inode).fs,n⟩
  have hacc := h.getINode ⟨(s.inodes (s.dentries p).inode).fs,n⟩
  have hinode := getINode_inode (s := s) ⟨(s.inodes (s.dentries p).inode).fs,n⟩
  have hparent := h.getINode_inodes ⟨(s.inodes (s.dentries p).inode).fs,n⟩ (h.inode_mem hp)
  change got.1.dentries = s.dentries at hdentries
  change got.1.dentryCache = s.dentryCache at hcache
  change Accounted Good got.1 hand (got.2 :: inodeHand) at hacc
  change got.1.inodes got.2 = _ at hinode
  change got.1.inodes _ = _ at hparent
  have hin : p ∈ got.1.dentryCache := hcache ▸ hp
  simp only [FileSystem.newDEntry,getDEntry_eq hin]
  have hstart : Accounted Good (got.1.addReference p) ((some p).toList ++ hand)
    (got.2 :: inodeHand) := hacc.addReference hin
  refine ⟨hstart.construct (fun o => List.perm_middle.count_eq o) (fun _ _ he => he) nofun ?_ ?_,
    hkept.processes,hkept.roots⟩
  · intro d hd _ hpd
    change d ∈ got.1.dentryCache at hd
    change (got.1.dentries d).parent = some p at hpd
    change (got.1.dentries d).name ≠ name
    rw [hdentries] at hpd ⊢
    exact hnot d (hcache ▸ hd) hpd
  · intro q hq
    cases hq
    change (got.1.inodes got.2).fs = (got.1.inodes (got.1.dentries p).inode).fs ∧
      Good (got.1.inodes (got.1.dentries p).inode) name (got.1.inodes got.2).number
    rw [hdentries,hinode,hparent]
    exact ⟨rfl,hgood⟩

/-- LookupDEntry gives a dentry that is in hand, or none. -/
theorem lookupDEntry {p : ℕ} {name : Name} (h : Accounted Good s hand inodeHand)
    (hp : p ∈ s.dentryCache) (hgood : ∀ number,
      disk.lookup (s.inodes (s.dentries p).inode) name = some number →
        Good (s.inodes (s.dentries p).inode) name number) :
    Gives Good s hand inodeHand (s.lookupDEntry disk p name) := by
  rw [FileSystem.lookupDEntry,h.inodeOf hp]
  dsimp only
  cases hfind : s.dentryCache.find? fun d =>
      (s.dentries d).parent = some p ∧ name = (s.dentries d).name with
  | some d =>
    exact ⟨_,some d,rfl,h.addReference (List.mem_of_find?_eq_some hfind),rfl,rfl⟩
  | none =>
    dsimp only
    cases hlook : disk.lookup (s.inodes (s.dentries p).inode) name with
    | none => exact ⟨s,none,rfl,h,Kept.refl s⟩
    | some number =>
      have hnot (d : ℕ) (hd : d ∈ s.dentryCache) (hpd : (s.dentries d).parent = some p) :
          (s.dentries d).name ≠ name := by
        have := List.find?_eq_none.mp hfind d hd
        simp only [hpd,true_and,decide_eq_true_eq] at this
        exact fun he => this he.symm
      obtain ⟨hacc,hkept⟩ := h.makeDEntry hp hnot (hgood number hlook)
      exact ⟨_,_,rfl,hacc,hkept⟩

/-- The loop of File::open keeps one dentry in hand and gives it, or none. -/
theorem walk (hfinds : Finds Good disk) (tokens : List Name)
    (h : Accounted Good s (d :: hand) inodeHand) :
    Gives Good s hand inodeHand (FileSystem.walk disk s d tokens) := by
  induction tokens generalizing s d with
  | nil => exact ⟨s,some d,rfl,h,Kept.refl s⟩
  | cons t ts ih =>
    have hd : d ∈ s.dentryCache := h.of_hand List.mem_cons_self
    rw [FileSystem.walk]
    by_cases hdot : t = dot
    · rw [if_pos hdot]
      exact ih h
    rw [if_neg hdot]
    by_cases hdd : t = dotDot
    · rw [if_pos hdd]
      obtain ⟨c,hc⟩ := h.dentryCount hd
      rw [hc]
      cases hp : (s.dentries d).parent with
      | none => exact ih h
      | some p =>
        have hpin := h.of_parent hd hp
        dsimp only
        rw [getDEntry_eq hpin]
        obtain ⟨s₁,hput,hacc,hkept⟩ :=
          ((h.addReference hpin).perm (List.Perm.swap p d hand)).putDEntry
        dsimp only
        rw [hput]
        exact (ih hacc).of_kept ⟨hkept.processes,hkept.roots⟩
    · rw [if_neg hdd]
      obtain ⟨s₁,next,heq,hacc,hkept⟩ := h.lookupDEntry hd
        fun number => hfinds _ t number hdot hdd
      rw [heq]
      obtain ⟨s₂,hput,hacc₂,hkept₂⟩ := (hacc.perm List.perm_middle.symm).putDEntry
      dsimp only
      rw [hput]
      cases next with
      | none => exact ⟨s₂,none,rfl,hacc₂,hkept.trans hkept₂⟩
      | some e => exact (ih hacc₂).of_kept (hkept.trans hkept₂)

/-- The end of File::open gives the dentry it gets, or puts it. -/
theorem finishOpen (flags : ℕ) (h : Accounted Good s (d :: hand) inodeHand) :
    Gives Good s hand inodeHand (s.finishOpen disk d flags) := by
  rw [FileSystem.finishOpen,h.inodeOf (h.of_hand List.mem_cons_self)]
  dsimp only
  split
  · obtain ⟨s',hput,hacc,hkept⟩ := h.putDEntry
    rw [hput]
    exact ⟨s',none,rfl,hacc,hkept⟩
  · exact ⟨s,some d,rfl,h,Kept.refl s⟩

/-- A path leads to a dentry that is in hand, or to none. -/
theorem resolve (hfinds : Finds Good disk) (tokens : List Name)
    (h : Accounted Good s hand inodeHand) (hd : d ∈ s.dentryCache) :
    Gives Good s hand inodeHand (s.resolve disk d tokens) := by
  rw [FileSystem.resolve,h.inodeOf hd,getDEntry_eq hd]
  have hkept : Kept s (s.addReference d) := ⟨rfl,rfl⟩
  exact ((h.addReference hd).walk hfinds tokens).of_kept hkept

/-- File::open gives the dentry of the new file, or none. -/
theorem openFrom (hfinds : Finds Good disk) (tokens : List Name) (flags : ℕ)
    (h : Accounted Good s hand inodeHand) (hd : d ∈ s.dentryCache) :
    Gives Good s hand inodeHand (s.openFrom disk d tokens flags) := by
  obtain ⟨s₁,r,heq,hacc,hkept⟩ := h.resolve hfinds tokens hd
  rw [FileSystem.openFrom,heq]
  cases r with
  | none => exact ⟨s₁,none,rfl,hacc,hkept⟩
  | some e => exact (hacc.finishOpen flags).of_kept hkept

end Accounted

end WootOs.DentryCache
