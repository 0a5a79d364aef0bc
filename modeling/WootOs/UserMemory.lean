import WootOs.PageMap

/-!
# System calls on user memory

A process gets memory from mmap, brk, the frame buffer and shared memory, and
gives it back with munmap, brk and the unmapping of shared memory. Each call
comes with addresses and lengths of its own choice, 32 bits each, and each
looks at them in its own way, if at all.

A process is named by its address space. The calls stand on frames, the second
form of the page tables. Memory::Zero and File::Read write through the page map
of the process byte by byte, and the call ends where a page is not mapped. A
file is the bytes it yields; which handle it has is left out.
-/

namespace WootOs.UserMemory

open FrameAllocator Paging PageMap

/-- The variables of Process for brk and mmap. -/
structure Brk where
  /-- MinBrk. -/
  minBrk : ℕ
  /-- MaxBrk. -/
  maxBrk : ℕ
  /-- CurrentBrk. -/
  currentBrk : ℕ
  /-- MappedBrk. -/
  mappedBrk : ℕ
  /-- CurrentMMapBrk. -/
  currentMMapBrk : ℕ

/-- SharedMem. -/
structure SharedMem where
  /-- pageCount. -/
  pageCount : ℕ
  /-- frames, which are fewer than pageCount when memory ran out. -/
  frames : List ℕ
  /-- mappings, the owner and the address of each. -/
  mappings : List (ℕ × ℕ)

/-- Memory, the processes and the shared memory. -/
structure Machine where
  /-- Memory. -/
  frames : Frames
  /-- The variables of a process. -/
  brk : ℕ → Brk
  /-- The shared memory objects. -/
  shared : ℕ → SharedMem

/-- The macro align to the size of a page, in 32 bits. -/
def alignPage (n : ℕ) : ℕ := (n + (pageSize - 1)) % 2 ^ 32 / pageSize * pageSize

/-- The turns of a loop over the pages from an address up to another. -/
def turns (start stop : ℕ) : ℕ := (stop - start + (pageSize - 1)) / pageSize

/-- A loop that a turn can leave. -/
def loop {S : Type*} (turn : S → ℕ → Bool × S) : List ℕ → S → Bool × S
  | [],s => (true,s)
  | n :: ns,s => if (turn s n).1 then loop turn ns (turn s n).2 else turn s n

/-- A word with another value of one of its bytes. -/
def setByte (word i byte : ℕ) : ℕ :=
  word - word / 256 ^ i % 256 * 256 ^ i + byte % 256 * 256 ^ i

/-- Write a byte through the page map of a process. -/
def store (f : Frames) (as va byte : ℕ) : Bool × Frames :=
  match walk f as (va / pageSize) with
  | some page =>
    let i := va % pageSize / 4
    (true,f.write page.frame i (setByte (f.word page.frame i) (va % 4) byte))
  | none => (false,f)

/-- Write bytes to consecutive addresses. -/
def storeAll (as : ℕ) : List ℕ → Frames → ℕ → Bool × Frames
  | [],f,_ => (true,f)
  | byte :: bytes,f,va =>
    if (store f as va byte).1 then storeAll as bytes (store f as va byte).2 ((va + 1) % 2 ^ 32)
    else store f as va byte

/-- AllocFrame and MapPage, given up when there is no frame. -/
def mapNew (f : Frames) (as va : ℕ) : Bool × Frames :=
  let r := allocFrame f.bitmap
  if r.1 = noFrame then (false,f) else { f with bitmap := r.2 }.mapPage as va r.1 true true

/-- AllocFrame and MapPage, whatever they give. -/
def mapAny (f : Frames) (as va : ℕ) : Frames :=
  let r := allocFrame f.bitmap
  ({ f with bitmap := r.2 }.mapPage as va r.1 true true).2

/-- FreeFrame of what a page is mapped to, and UnMapPage. -/
def releasePage (f : Frames) (as va : ℕ) : Frames :=
  let pa := f.getPhysicalAddress as va
  ((if pa ≠ noFrame then f.free pa else f).unMapPage as va).2

namespace Machine

variable (m : Machine)

/-- Other variables of a process. -/
def setBrk (as : ℕ) (b : Brk) : Machine := { m with brk := Function.update m.brk as b }

/-- Process::brk. -/
def moveBrk (as brk : ℕ) (allocPages : Bool) : ℕ × Machine :=
  let b := m.brk as
  let brk := alignPage brk
  if brk < b.minBrk ∨ b.maxBrk < brk then (b.currentBrk,m)
  else
    let mappedNeeded := alignPage brk
    if b.mappedBrk < mappedNeeded then
      let r := if allocPages then
          loop (fun f i => mapNew f as (b.mappedBrk + i * pageSize))
            (List.range (turns b.mappedBrk mappedNeeded)) m.frames
        else (true,m.frames)
      if r.1 then
        (brk,{ m with frames := r.2 }.setBrk as
          { b with mappedBrk := mappedNeeded,currentBrk := brk })
      else (b.currentBrk,{ m with frames := r.2 })
    else
      let frames := (List.range (turns mappedNeeded b.mappedBrk)).foldl
        (fun f i => releasePage f as (mappedNeeded + i * pageSize)) m.frames
      (brk,{ m with frames := frames }.setBrk as
        { b with mappedBrk := mappedNeeded,currentBrk := brk })

/-- Process::Brk. -/
def brkTo (as brk : ℕ) (allocPages locked : Bool) : ℕ × Machine :=
  if locked then m.moveBrk as brk allocPages else (noFrame,m)

/-- Process::SBrk. -/
def sBrk (as incr : ℕ) (allocPages locked : Bool) : ℕ × Machine :=
  if locked then
    ((m.brk as).currentBrk,(m.moveBrk as (((m.brk as).currentBrk + incr) % 2 ^ 32) allocPages).2)
  else (noFrame,m)

/-- Process::MMapSBrk, which maps the new pages. -/
def mmapSBrk (as incr : ℕ) (locked : Bool) : ℕ × Machine :=
  if locked then
    let b := m.brk as
    let brk := alignPage ((b.currentMMapBrk + incr) % 2 ^ 32)
    let frames := (List.range (turns b.currentMMapBrk brk)).foldl
      (fun f i =>
        if b.currentMMapBrk + i * pageSize < kernelBase then
          mapAny f as (b.currentMMapBrk + i * pageSize)
        else f) m.frames
    (b.currentMMapBrk,{ m with frames := frames }.setBrk as { b with currentMMapBrk := brk })
  else (noFrame,m)

/-- One turn of the loop of sys_mmap2. -/
def mmapPage (as addr : ℕ) (f : Frames) (i : ℕ) : Bool × Frames :=
  let va := addr + i * pageSize
  let r := if f.getPhysicalAddress as va = noFrame then mapNew f as va else (true,f)
  if r.1 then storeAll as (List.replicate pageSize 0) r.2 va else r

/-- The memory of sys_mmap2: whether the call goes on, the address and the state. -/
def mmapMemory (as addr length : ℕ) (locked : Bool) : Bool × ℕ × Machine :=
  if addr = 0 then (true,m.mmapSBrk as length locked)
  else
    let r := loop (mmapPage as addr) (List.range (turns addr ((addr + length) % 2 ^ 32))) m.frames
    (r.1,addr,{ m with frames := r.2 })

/-- SysCalls::sys_mmap2, and sys_mmap. There are bytes when the handle is that of a file. -/
def sysMmap2 (as addr length : ℕ) (bytes : Option (List ℕ)) (locked : Bool) : Machine :=
  if kernelBase ≤ addr then m
  else
    let length := alignPage length
    let r := m.mmapMemory as addr length locked
    match r.1,bytes with
    | true,some bytes =>
      { r.2.2 with frames := (storeAll as (bytes.take length) r.2.2.frames r.2.1).2 }
    | _,_ => r.2.2

/-- SysCalls::sys_munmap. -/
def sysMunmap (as addr length : ℕ) : Machine :=
  { m with
    frames := m.frames.unmapRange as (addr / pageSize * pageSize) (length / pageSize * pageSize) }

/-- SysCalls::sys_brk. -/
def sysBrk (as brk : ℕ) (locked : Bool) : Machine := (m.brkTo as brk true locked).2

/-- The pages of a frame buffer are mapped, up to the kernel. -/
def mapPixels (as startVA size pa : ℕ) : Machine :=
  let endVA := (startVA + size) % 2 ^ 32
  { m with
    frames := (List.range (turns startVA endVA)).foldl
      (fun f i =>
        if kernelBase ≤ startVA + i * pageSize then f
        else (f.mapPage as (startVA + i * pageSize) ((pa + i * pageSize) % 2 ^ 32) true true).2)
      m.frames }

/-- SysCalls::sys_fb_map_pixels, with the address of the buffer and its bytes if the handle
is that of a frame buffer. -/
def sysFbMapPixels (as : ℕ) (fb : Option (ℕ × ℕ)) (startVA : ℕ) (locked : Bool) : Machine :=
  match fb with
  | none => m
  | some (pa,bytes) =>
    let size := alignPage bytes
    let r := if startVA = 0 then m.sBrk as size false locked else (startVA,m)
    r.2.mapPixels as r.1 size pa

/-- SharedMem::GetSize. -/
def sharedSize (s : ℕ) : ℕ := (m.shared s).pageCount * pageSize % 2 ^ 32

/-- SharedMem::Map. -/
def mapShared (s as va : ℕ) (write : Bool) : Machine :=
  let shm := m.shared s
  { m with
    shared := Function.update m.shared s { shm with mappings := shm.mappings ++ [(as,va)] }
    frames := (List.range shm.pageCount).foldl
      (fun f i => (f.mapPage as ((va + i * pageSize) % 2 ^ 32) (shm.frames.getD i 0) true write).2)
      m.frames }

/-- SharedMem::UnMap. -/
def unMapShared (s as va : ℕ) : Machine :=
  let shm := m.shared s
  if (as,va) ∈ shm.mappings then
    { m with
      shared := Function.update m.shared s { shm with mappings := shm.mappings.erase (as,va) }
      frames := (List.range shm.pageCount).foldl
        (fun f i => (f.unMapPage as ((va + i * pageSize) % 2 ^ 32)).2) m.frames }
  else m

/-- SysCalls::sys_ipc_map_shmem, with the object of the handle if it has one. -/
def sysIpcMapShmem (as : ℕ) (shm : Option ℕ) (va : ℕ) (write memoryLocked locked : Bool) :
    Machine :=
  match shm with
  | none => m
  | some s =>
    let r := if va = 0 then m.sBrk as (m.sharedSize s) false memoryLocked else (va,m)
    if locked then r.2.mapShared s as r.1 write else r.2

/-- SysCalls::sys_ipc_unmap_shmem. -/
def sysIpcUnmapShmem (as : ℕ) (shm : Option ℕ) (va : ℕ) (locked : Bool) : Machine :=
  match shm with
  | none => m
  | some s => if locked then m.unMapShared s as va else m

end Machine

/-- The system calls, each with the address space of its process. -/
inductive Call where
  /-- SysCalls::sys_mmap2, or sys_mmap. -/
  | mmap2 (as addr length : ℕ) (bytes : Option (List ℕ)) (locked : Bool)
  /-- SysCalls::sys_munmap. -/
  | munmap (as addr length : ℕ)
  /-- SysCalls::sys_brk. -/
  | brk (as brk : ℕ) (locked : Bool)
  /-- SysCalls::sys_fb_map_pixels. -/
  | fbMapPixels (as : ℕ) (fb : Option (ℕ × ℕ)) (startVA : ℕ) (locked : Bool)
  /-- SysCalls::sys_ipc_map_shmem. -/
  | ipcMapShmem (as : ℕ) (shm : Option ℕ) (va : ℕ) (write memoryLocked locked : Bool)
  /-- SysCalls::sys_ipc_unmap_shmem. -/
  | ipcUnmapShmem (as : ℕ) (shm : Option ℕ) (va : ℕ) (locked : Bool)

/-- The address space of the process that calls. -/
def Call.space : Call → ℕ
  | .mmap2 as _ _ _ _ => as
  | .munmap as _ _ => as
  | .brk as _ _ => as
  | .fbMapPixels as _ _ _ => as
  | .ipcMapShmem as _ _ _ _ _ => as
  | .ipcUnmapShmem as _ _ _ => as

/-- The numbers that a process passes have 32 bits. -/
def Call.Words : Call → Prop
  | .mmap2 _ addr length _ _ => addr < 2 ^ 32 ∧ length < 2 ^ 32
  | .munmap _ addr length => addr < 2 ^ 32 ∧ length < 2 ^ 32
  | .brk _ addr _ => addr < 2 ^ 32
  | .fbMapPixels _ _ startVA _ => startVA < 2 ^ 32
  | .ipcMapShmem _ _ va _ _ _ => va < 2 ^ 32
  | .ipcUnmapShmem _ _ va _ => va < 2 ^ 32

/-- The effect of a call. -/
def Machine.apply (m : Machine) : Call → Machine
  | .mmap2 as addr length bytes locked => m.sysMmap2 as addr length bytes locked
  | .munmap as addr length => m.sysMunmap as addr length
  | .brk as brk locked => m.sysBrk as brk locked
  | .fbMapPixels as fb startVA locked => m.sysFbMapPixels as fb startVA locked
  | .ipcMapShmem as shm va write memoryLocked locked =>
    m.sysIpcMapShmem as shm va write memoryLocked locked
  | .ipcUnmapShmem as shm va locked => m.sysIpcUnmapShmem as shm va locked

/-- The first page of the windows to frames, at kernel4kVA. -/
def windowPages : ℕ := 1023 * 1024

/-- What the addresses of the kernel lead to is the same: the mappings of its pages, the
contents of their frames, and frames in use stay in use. The pages of the windows are the
means of the paging code itself. -/
structure KernelKept (spaces : List ℕ) (f g : Frames) : Prop where
  /-- The mappings. -/
  pages : ∀ as ∈ spaces,∀ page,userPages ≤ page → page < windowPages →
    walk g as page = walk f as page
  /-- The contents. -/
  words : ∀ as ∈ spaces,∀ page,userPages ≤ page → page < windowPages →
    ∀ m,walk f as page = some m → ∀ i < 1024,g.word m.frame i = f.word m.frame i
  /-- The frames. -/
  used : ∀ as ∈ spaces,∀ page,userPages ≤ page → page < windowPages →
    ∀ m,walk f as page = some m → f.bitmap.getBit m.frame = true → g.bitmap.getBit m.frame = true

end WootOs.UserMemory
