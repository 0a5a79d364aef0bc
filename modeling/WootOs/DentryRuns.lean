import Mathlib.Data.List.Perm.Basic
import WootOs.DentryCounts

/-!
# Dentries and inodes over runs

Every call of a run puts the references that it gets or leaves them with a
process or a file system. So between the calls a dentry has a count of one less
than the number of its holders and is deleted by the call in which the last of
them lets go, and an inode counts the dentries it has.

Two mounted file systems both have a root without a parent and with the name
"/", so that a name is unique only under a parent.
-/

namespace WootOs.DentryCache

open ReferenceCounts

set_option linter.unusedSectionVars false

variable {Good : INode → Name → ℕ → Prop} {disk : Disk} {s s' : FileSystem} {d n : ℕ}
variable {hand hand' inodeHand : List ℕ} {p : Process}

/-- What a process and those after and before it hold. -/
theorem count_processes {l : List Process} (hp : l[n]? = some p) (o : ℕ) :
    (l.flatMap Process.holds).count o =
      p.holds.count o + ((l.eraseIdx n).flatMap Process.holds).count o := by
  obtain ⟨hn,rfl⟩ := List.getElem?_eq_some_iff.mp hp
  have hperm := (List.getElem_cons_eraseIdx_perm hn).flatMap_right Process.holds
  rw [← hperm.count_eq o,List.flatMap_cons,List.count_append]

/-- What the processes hold when one of them holds something else. -/
theorem count_set_processes {l : List Process} {q : Process} (hp : l[n]? = some p) (o : ℕ) :
    ((l.set n q).flatMap Process.holds).count o + p.holds.count o =
      (l.flatMap Process.holds).count o + q.holds.count o := by
  have hn := (List.getElem?_eq_some_iff.mp hp).1
  have hset : (l.set n q)[n]? = some q := List.getElem?_set_self hn
  rw [count_processes hp,count_processes hset,List.eraseIdx_set_eq]
  omega

namespace Accounted

/-- A process takes references in hand or gives some of its own. -/
theorem setProcess {q : Process} (h : Accounted Good s hand inodeHand)
    (hp : s.processes[n]? = some p)
    (hcount : ∀ o,q.holds.count o + hand'.count o = p.holds.count o + hand.count o) :
    Accounted Good (s.setProcess n q) hand' inodeHand := by
  refine h.setProcesses _ fun o => ?_
  have := count_set_processes (q := q) hp o
  have := hcount o
  omega

/-- What a process holds is in the cache. -/
theorem of_process (h : Accounted Good s hand inodeHand) (hp : s.processes[n]? = some p)
    (hd : d ∈ p.holds) : d ∈ s.dentryCache := by
  refine h.of_holds (List.mem_append_right _ (List.mem_append_left _ ?_))
  exact List.mem_flatMap.mpr ⟨p,List.mem_of_getElem? hp,hd⟩

/-- The current directory of a process is in the cache. -/
theorem of_currentDirectory (h : Accounted Good s hand inodeHand) (hp : s.processes[n]? = some p)
    (hd : p.currentDirectory = some d) : d ∈ s.dentryCache :=
  h.of_process hp (List.mem_append_left _ (Option.mem_toList.mpr hd))

/-- The dentry of an open file is in the cache. -/
theorem of_file (h : Accounted Good s hand inodeHand) (hp : s.processes[n]? = some p) {file : ℕ}
    (hd : p.files[file]? = some d) : d ∈ s.dentryCache :=
  h.of_process hp (List.mem_append_right _ (List.mem_of_getElem? hd))

/-- The dentry where a path starts is in the cache. -/
theorem of_rootOf (h : Accounted Good s hand inodeHand) (hp : s.processes[n]? = some p)
    {origin : Origin} (hroot : s.rootOf p origin = some (some d)) : d ∈ s.dentryCache := by
  cases origin with
  | fileSystem fs =>
    have hd : d ∈ s.roots := List.mem_of_getElem? (Option.some.inj hroot)
    exact h.of_holds (List.mem_append_right _ (List.mem_append_right _ hd))
  | currentDirectory => exact h.of_currentDirectory hp (Option.some.inj hroot)
  | absolute => exact absurd hroot nofun

/-- File::Open gives the dentry of the new file, or none. -/
theorem openFile (hfinds : Finds Good disk) (h : Accounted Good s hand inodeHand)
    (hp : s.processes[n]? = some p) {origin : Origin} (horigin : origin ≠ .absolute)
    (tokens : List Name) (flags : ℕ) :
    Gives Good s hand inodeHand (s.openFile disk p origin tokens flags) := by
  cases hroot : s.rootOf p origin with
  | none =>
    cases origin with
    | absolute => exact absurd rfl horigin
    | _ => exact absurd hroot nofun
  | some start =>
    simp only [FileSystem.openFile,hroot]
    cases start with
    | none => exact ⟨s,none,rfl,h,Kept.refl s⟩
    | some d => exact h.openFrom hfinds tokens flags (h.of_rootOf hp hroot)

/-- All references in hand are put. -/
theorem putAll {ds : List ℕ} (h : Accounted Good s (ds ++ hand) inodeHand) :
    ∃ s',s.putAll ds = some s' ∧ Accounted Good s' hand inodeHand := by
  induction ds generalizing s with
  | nil => exact ⟨s,rfl,h⟩
  | cons d ds ih =>
    obtain ⟨s₁,hput,hacc,-⟩ := h.putDEntry
    rw [FileSystem.putAll,hput]
    exact ih hacc

/-- The dentry of a new file goes to the process, or is put. -/
theorem giveHandle {file : Option ℕ} (h : Accounted Good s (file.toList ++ []) inodeHand)
    (hp : s.processes[n]? = some p) (handle : Bool) :
    ∃ s',s.giveHandle n p file handle = some s' ∧ Accounted Good s' [] inodeHand := by
  cases file with
  | none => exact ⟨s,rfl,h⟩
  | some d =>
    cases handle with
    | true =>
      refine ⟨_,rfl,h.setProcess hp fun o => ?_⟩
      simp only [Process.holds,Option.toList_some,List.count_append,List.count_cons,List.count_nil]
      omega
    | false =>
      obtain ⟨s',hput,hacc,-⟩ := h.putDEntry
      exact ⟨s',hput,hacc⟩

/-- A mounted file system holds its root. -/
theorem mount (h : Accounted Good s hand inodeHand) :
    Accounted Good s.mount hand inodeHand := by
  let got := s.getINode ⟨s.roots.length,rootNumber⟩
  have hinode : got.1.inodes got.2 = ⟨s.roots.length,rootNumber⟩ := getINode_inode _
  have hroots : got.1.roots = s.roots := (getINode_frame _).2.2.2.roots
  have hstart : Accounted Good got.1 (none.toList ++ hand) (got.2 :: inodeHand) := h.getINode _
  have hmade : Accounted Good { got.1.construct ⟨none,['/'],got.2⟩ with
      roots := got.1.roots ++ [got.1.nextDEntry] } hand inodeHand := by
    refine hstart.construct ?_ ?_ ?_ ?_ nofun
    · intro o
      simp only [List.count_append,List.count_cons,List.count_nil]
      omega
    · intro fs d hd
      have hlt := (List.getElem?_eq_some_iff.mp hd).1
      rw [List.getElem?_append_left hlt]
      exact hd
    · intro _
      rw [hinode,hroots]
      exact List.getElem?_concat_length
    · intro d _ hnone
      exact absurd rfl hnone
  exact hmade

/-- Every call but an absolute path has an outcome and keeps the counts. -/
theorem apply (hfinds : Finds Good disk) (h : Accounted Good s [] inodeHand) {op : Op}
    (hop : ¬op.Absolute) : ∃ s',s.apply disk op = some s' ∧ Accounted Good s' [] inodeHand := by
  cases op with
  | openFile n origin tokens flags handle =>
    cases hp : s.processes[n]? with
    | none => exact ⟨s,by simp only [FileSystem.apply,hp],h⟩
    | some p =>
      obtain ⟨s₁,r,heq,hacc,hkept⟩ := h.openFile hfinds hp hop tokens flags
      simp only [FileSystem.apply,hp,heq]
      rw [← hkept.processes] at hp
      exact hacc.giveHandle hp handle
  | closeFile n file =>
    cases hp : s.processes[n]? with
    | none => exact ⟨s,by simp only [FileSystem.apply,hp],h⟩
    | some p =>
      cases hd : p.files[file]? with
      | none => exact ⟨s,by simp only [FileSystem.apply,hp,hd],h⟩
      | some d =>
        simp only [FileSystem.apply,hp,hd]
        have hgiven : Accounted Good (s.setProcess n { p with files := p.files.eraseIdx file }) [d]
            inodeHand := by
          refine h.setProcess hp fun o => ?_
          obtain ⟨hfile,rfl⟩ := List.getElem?_eq_some_iff.mp hd
          have := (List.getElem_cons_eraseIdx_perm hfile).count_eq o
          simp only [Process.holds,List.count_append,List.count_cons,List.count_nil] at this ⊢
          omega
        obtain ⟨s',hput,hacc,-⟩ := hgiven.putDEntry
        exact ⟨s',hput,hacc⟩
  | createProcess n =>
    cases hp : s.processes[n]?.bind Process.currentDirectory with
    | none =>
      simp only [FileSystem.apply,hp]
      refine ⟨_,rfl,h.setProcesses _ fun o => ?_⟩
      simp [Process.holds]
    | some cdir =>
      obtain ⟨p,hproc,hcdir⟩ := Option.bind_eq_some_iff.mp hp
      have hin := h.of_currentDirectory hproc hcdir
      simp only [FileSystem.apply,hp,getDEntry_eq hin]
      refine ⟨_,rfl,(h.addReference hin).setProcesses _ fun o => ?_⟩
      simp [Process.holds,FileSystem.addReference]
  | destroyProcess n =>
    cases hp : s.processes[n]? with
    | none => exact ⟨s,by simp only [FileSystem.apply,hp],h⟩
    | some p =>
      simp only [FileSystem.apply,hp]
      refine (h.setProcesses (s.processes.eraseIdx n) fun o => ?_).putAll
      have := count_processes hp o
      simp only [Process.holds,List.count_append,List.count_nil] at this ⊢
      omega
  | mount => exact ⟨_,rfl,h.mount⟩
  | enterDirectory n file =>
    cases hp : s.processes[n]? with
    | none => exact ⟨s,by simp only [FileSystem.apply,hp],h⟩
    | some p =>
      cases hcwd : p.currentDirectory with
      | some _ => exact ⟨s,by simp only [FileSystem.apply,hp,hcwd],h⟩
      | none =>
        cases hd : p.files[file]? with
        | none => exact ⟨s,by simp only [FileSystem.apply,hp,hcwd,hd],h⟩
        | some d =>
          have hin := h.of_file hp hd
          simp only [FileSystem.apply,hp,hcwd,hd,getDEntry_eq hin]
          refine ⟨_,rfl,(h.addReference hin).setProcess (p := p) hp fun o => ?_⟩
          simp only [Process.holds,hcwd,Option.toList_some,Option.toList_none,List.count_append,
            List.count_cons,List.count_nil]
          omega
  | leaveDirectory n =>
    cases hp : s.processes[n]? with
    | none => exact ⟨s,by simp only [FileSystem.apply,hp],h⟩
    | some p =>
      cases hcwd : p.currentDirectory with
      | none => exact ⟨s,by simp only [FileSystem.apply,hp,hcwd],h⟩
      | some d =>
        simp only [FileSystem.apply,hp,hcwd]
        have hgiven : Accounted Good (s.setProcess n { p with currentDirectory := none }) [d]
            inodeHand := by
          refine h.setProcess hp fun o => ?_
          simp only [Process.holds,hcwd,Option.toList_some,Option.toList_none,List.count_append,
            List.count_cons,List.count_nil]
          omega
        obtain ⟨s',hput,hacc,-⟩ := hgiven.putDEntry
        exact ⟨s',hput,hacc⟩

end Accounted

/-- Nothing is counted before the first file system is mounted. -/
theorem accounted_start : Accounted Good .start [] [] := by
  have hnone (bias : ℤ) : Counted bias (fun _ : ℕ => none) [] [] :=
    ⟨nofun,fun _ _ => rfl,fun _ => Iff.rfl,List.nodup_nil⟩
  exact ⟨⟨nofun,nofun,nofun,nofun,nofun,nofun⟩,hnone 1,hnone 0⟩

/-- An absolute path changes nothing, if the call comes to an end. -/
theorem apply_absolute {op : Op} (habs : op.Absolute) (heq : s.apply disk op = some s') :
    s' = s := by
  cases op with
  | openFile n origin tokens flags handle =>
    change origin = .absolute at habs
    subst habs
    cases hp : s.processes[n]? with
    | none =>
      simp only [FileSystem.apply,hp,Option.some.injEq] at heq
      exact heq.symm
    | some p =>
      simp only [FileSystem.apply,hp,FileSystem.openFile,FileSystem.rootOf] at heq
      exact absurd heq nofun
  | _ => exact absurd habs id

theorem run_cons (call : Disk × Op) (ops : List (Disk × Op)) :
    s.run (call :: ops) = (s.apply call.1 call.2).bind fun t => t.run ops := by
  obtain ⟨disk,op⟩ := call
  rw [FileSystem.run]
  cases s.apply disk op <;> rfl

/-- The counts are right in each state that a run comes to. -/
theorem Accounted.run {ops : List (Disk × Op)} (h : Accounted (fun _ _ _ => True) s [] inodeHand)
    (hrun : s.run ops = some s') : Accounted (fun _ _ _ => True) s' [] inodeHand := by
  induction ops generalizing s with
  | nil =>
    cases hrun
    exact h
  | cons call ops ih =>
    obtain ⟨disk,op⟩ := call
    cases hop : s.apply disk op with
    | none =>
      rw [run_cons,hop] at hrun
      exact absurd hrun nofun
    | some t =>
      rw [run_cons,hop] at hrun
      refine ih ?_ hrun
      by_cases habs : op.Absolute
      · rw [apply_absolute habs hop]
        exact h
      · have hfinds : Finds (fun _ _ _ => True) disk := fun _ _ _ _ _ _ => trivial
        obtain ⟨t',heq,hacc⟩ := h.apply hfinds habs
        cases hop.symm.trans heq
        exact hacc

/-- A run that opens no absolute path comes to its end. -/
theorem Accounted.run_isSome {ops : List (Disk × Op)}
    (h : Accounted (fun _ _ _ => True) s [] inodeHand)
    (hops : ∀ call ∈ ops,¬call.2.Absolute) : (s.run ops).isSome := by
  induction ops generalizing s with
  | nil => rfl
  | cons call ops ih =>
    obtain ⟨disk,op⟩ := call
    have hfinds : Finds (fun _ _ _ => True) disk := fun _ _ _ _ _ _ => trivial
    obtain ⟨t,heq,hacc⟩ := h.apply hfinds (hops _ List.mem_cons_self)
    rw [run_cons,heq]
    exact ih hacc fun call hin => hops call (List.mem_cons_of_mem _ hin)

/-- The counts, the caches and the names are right. -/
structure Right (s : FileSystem) : Prop where
  /-- The ReferenceCount of a cached dentry is one less than the number of its holders. -/
  counted : ∀ d ∈ s.dentryCache,∃ c,s.dentryCount d = some c ∧ c + 1 = s.holders d
  /-- A dentry is there as long as it has a holder, and no longer. -/
  deleted : ∀ d,(s.dentryCount d).isSome ↔ 0 < s.holders d
  /-- The cached dentries are those that are there. -/
  dentryCached : ∀ d,d ∈ s.dentryCache ↔ (s.dentryCount d).isSome
  /-- No dentry is cached twice. -/
  dentryOnce : s.dentryCache.Nodup
  /-- The ReferenceCount of a cached inode is the number of its dentries. -/
  inodeCounted : ∀ i ∈ s.inodeCache,∃ c,s.inodeCount i = some c ∧ c = s.inodeUses.count i
  /-- The cached inodes are those that are there. -/
  inodeCached : ∀ i,i ∈ s.inodeCache ↔ (s.inodeCount i).isSome
  /-- No inode is cached twice. -/
  inodeOnce : s.inodeCache.Nodup
  /-- A parent has at most one cached dentry of a name. -/
  oneName : ∀ d ∈ s.dentryCache,∀ e ∈ s.dentryCache,(s.dentries d).parent ≠ none →
    (s.dentries d).parent = (s.dentries e).parent → (s.dentries d).name = (s.dentries e).name →
    d = e
  /-- A file system has at most one cached dentry without a parent. -/
  oneRoot : ∀ d ∈ s.dentryCache,∀ e ∈ s.dentryCache,(s.dentries d).parent = none →
    (s.dentries e).parent = none →
    (s.inodes (s.dentries d).inode).fs = (s.inodes (s.dentries e).inode).fs → d = e
  /-- A file system has at most one cached inode of a number. -/
  oneINode : ∀ i ∈ s.inodeCache,∀ j ∈ s.inodeCache,s.inodes i = s.inodes j → i = j

/-- With no reference in hand the counts are those of the holders. -/
theorem Accounted.right (h : Accounted Good s [] []) : Right s := by
  have hholds : s.holds ++ [] = s.holds := List.append_nil _
  have huses : s.inodeUses ++ [] = s.inodeUses := List.append_nil _
  have hd := h.dentries
  have hi := h.inodes
  rw [hholds] at hd
  rw [huses] at hi
  refine ⟨fun d hin => ?_,fun d => ?_,fun d => ?_,hd.nodup,fun i hin => ?_,fun i => ?_,hi.nodup,
    h.oneName,fun d hin e hin' hp hp' hfs => ?_,h.oneINode⟩
  · obtain ⟨c,hc⟩ := h.dentryCount hin
    exact ⟨c,hc,(hd.eq_of_count hc).2⟩
  · rw [hd.isSome_iff,FileSystem.holders,List.count_pos_iff]
  · rw [hd.listed,hd.isSome_iff]
  · exact ⟨_,hi.counts i ((hi.listed i).mp hin),Int.sub_zero _⟩
  · rw [hi.listed,hi.isSome_iff]
  · have hroot := h.rooted d hin hp
    rw [hfs,h.rooted e hin' hp'] at hroot
    injection hroot with he
    exact he.symm

/-- In every state that any calls lead to the counts, the caches and the names are
right, and the calls come to an end unless one opens an absolute path. -/
theorem references_counted (ops : List (Disk × Op)) :
    (∀ s,FileSystem.start.run ops = some s → Right s) ∧
      ((∀ call ∈ ops,¬call.2.Absolute) → (FileSystem.start.run ops).isSome) :=
  ⟨fun _ hrun => (accounted_start.run hrun).right,accounted_start.run_isSome⟩

/-- A volume with nothing on it. -/
def emptyDisk : Disk where
  lookup := fun _ _ => none
  mode := fun _ => 0x4000
  resize := fun _ => 0

/-- The roots of two mounted file systems have the same parent and name. -/
theorem roots_share_name :
    ¬∀ (ops : List (Disk × Op)) (s : FileSystem),FileSystem.start.run ops = some s →
      ∀ d ∈ s.dentryCache,∀ e ∈ s.dentryCache,(s.dentries d).parent = (s.dentries e).parent →
        (s.dentries d).name = (s.dentries e).name → d = e := by
  intro h
  have hsame : (0 : ℕ) = 1 := h [(emptyDisk,.mount),(emptyDisk,.mount)] _ rfl 0 (by decide) 1
    (by decide) (by decide) (by decide)
  exact absurd hsame (by decide)

end WootOs.DentryCache
