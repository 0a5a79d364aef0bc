import WootOs.InterruptFlag

/-!
# Paging with interrupts disabled, and all such calls

Each function of paging.cpp, with every return after it has disabled
interrupts. A window to a frame is never missing where the code looks for a
null pointer: the system halts instead. Invalidating a page and flushing the
TLB leave nothing to see here, and neither does clearing new DMA memory.
-/

namespace WootOs.InterruptFlag

open CodeLogic FrameAllocator Paging

variable {T : Type}

/-! ### Frames -/

/-- Change the page tables. -/
def modifyPaging (f : Paging.Kernel → Paging.Kernel) : Code (Machine T) Unit :=
  modify fun m => { m with paging := f m.paging }

/-- Change the frames in use. -/
def setBitmap (b : FrameBitmap.Bitmap) : Code (Machine T) Unit :=
  modifyPaging fun p => { p with bitmap := b }

/-- Where a search for frames ends: with what it found, or with nothing. The flag is put
back after either. -/
def takeFrames (cs : Bool) (found : ℕ × FrameBitmap.Bitmap) : Code (Machine T) ℕ := do
  if found.1 = noFrame then
    restoreInterrupts cs
    return noFrame
  setBitmap found.2
  restoreInterrupts cs
  return found.1

/-- Paging::AllocFrame. -/
def allocFrame : Code (Machine T) ℕ := do
  let cs ← disableInterrupts
  takeFrames cs (FrameAllocator.allocFrame (← get).paging.bitmap)

/-- Paging::AllocFrame with an alignment. -/
def allocFrameAligned (alignment : ℕ) : Code (Machine T) ℕ := do
  if alignment % pageSize ≠ 0 then return noFrame
  let cs ← disableInterrupts
  takeFrames cs (FrameAllocator.allocFrameAligned (← get).paging.bitmap alignment)

/-- Paging::AllocFrames. -/
def allocFrames (n : ℕ) : Code (Machine T) ℕ := do
  let cs ← disableInterrupts
  takeFrames cs (FrameAllocator.allocFrames (← get).paging.bitmap n)

/-- Paging::AllocFrames with an alignment. -/
def allocFramesAligned (n alignment : ℕ) : Code (Machine T) ℕ := do
  if alignment % pageSize ≠ 0 then return noFrame
  let cs ← disableInterrupts
  takeFrames cs (FrameAllocator.allocFramesAligned (← get).paging.bitmap n alignment)

/-- Paging::FreeFrame. -/
def freeFrame (pa : ℕ) : Code (Machine T) Bool := do
  let cs ← disableInterrupts
  let b := (← get).paging.bitmap
  if b.getBit (pa / pageSize) = false then
    restoreInterrupts cs
    return false
  setBitmap (b.setBit (pa / pageSize) false)
  restoreInterrupts cs
  return true

/-- Go through a loop until one turn fails. -/
def untilFails {A : Type} (turn : A → Code (Machine T) Bool) : List A → Code (Machine T) Bool
  | [] => pure true
  | a :: as => do
    if !(← turn a) then return false
    untilFails turn as

/-- The page a number of pages behind an address. -/
def pageAfter (va i : ℕ) : ℕ := (va + i * pageSize) % 2 ^ 32

/-- Paging::FreeFrames. -/
def freeFrames (pa n : ℕ) : Code (Machine T) Bool :=
  untilFails (fun i => freeFrame (pageAfter pa i)) (List.range n)

/-- Paging::GetTotalFrames. -/
def getTotalFrames : Code (Machine T) ℕ := do
  return (← get).paging.bitmap.bitCount

/-- Paging::GetFreeFrames. -/
def getFreeFrames : Code (Machine T) ℕ := do
  let ints ← disableInterrupts
  let res := (← get).paging.bitmap.getCountOf false
  restoreInterrupts ints
  return res

/-- Paging::GetUsedFrames. -/
def getUsedFrames : Code (Machine T) ℕ := do
  let ints ← disableInterrupts
  let res := (← get).paging.bitmap.getCountOf true
  restoreInterrupts ints
  return res

/-! ### Pages -/

/-- Paging::alloc4k, which halts the system when no window is free. -/
def alloc4k (pa : ℕ) : Code (Machine T) ℕ := do
  match (← get).paging.alloc4k pa with
  | none => stuck
  | some (slot,p) =>
    modifyPaging fun _ => p
    return slot

/-- Paging::free4k. -/
def free4k (slot : ℕ) : Code (Machine T) Unit := modifyPaging fun p => p.free4k slot

/-- Read a word through a window. -/
def readWord (slot i : ℕ) : Code (Machine T) ℕ := do
  return (← get).paging.get slot i

/-- Write a word through a window. -/
def writeWord (slot i w : ℕ) : Code (Machine T) Unit := modifyPaging fun p => p.set slot i w

/-- The address space an argument names. -/
def spaceOf (pd : ℕ) : Code (Machine T) ℕ := do
  return (← get).paging.spaceOf pd

/-- The end of Paging::MapPage, with a window to the page table. -/
def mapLeaf (cs : Bool) (pt va pa : ℕ) (user write : Bool) : Code (Machine T) Bool := do
  writeWord pt (va / pageSize % 1024) (leaf pa user write)
  free4k pt
  restoreInterrupts cs
  return true

/-- Paging::MapPage. -/
def mapPage (pd va pa : ℕ) (user write : Bool) : Code (Machine T) Bool := do
  let pd ← spaceOf pd
  let cs ← disableInterrupts
  let va := va / pageSize * pageSize
  let pdir ← alloc4k pd
  let entry ← readWord pdir (va / largePageSize)
  if Vacant entry then
    let ptpa ← allocFrame
    if ptpa = noFrame then
      free4k pdir
      restoreInterrupts cs
      return false
    else
      let pt ← alloc4k ptpa
      modifyPaging fun p => p.zero pt
      writeWord pdir (va / largePageSize) (ptpa ||| 7)
      free4k pdir
      mapLeaf cs pt va pa user write
  else
    free4k pdir
    let pt ← alloc4k (entry / pageSize * pageSize)
    mapLeaf cs pt va pa user write

/-- A page table without a present entry is freed, below the kernel. -/
def dropTable (pdir pdidx ptpa va : ℕ) (freept : Bool) : Code (Machine T) Unit := do
  if freept ∧ va < kernelBase then
    let _ ← freeFrame ptpa
    writeWord pdir pdidx 0

/-- Paging::UnMapPage. -/
def unMapPage (pd va : ℕ) : Code (Machine T) Bool := do
  let pd ← spaceOf pd
  let cs ← disableInterrupts
  let va := va / pageSize * pageSize
  let pdir ← alloc4k pd
  let entry ← readWord pdir (va / largePageSize)
  if ¬Present entry then
    free4k pdir
    restoreInterrupts cs
    return false
  let pt ← alloc4k (entry / pageSize * pageSize)
  let pte ← readWord pt (va / pageSize % 1024)
  if ¬Present pte then
    free4k pt
    free4k pdir
    restoreInterrupts cs
    return false
  writeWord pt (va / pageSize % 1024) 0
  let freept := tableEmpty ((← get).paging.get pt)
  free4k pt
  dropTable pdir (va / largePageSize) (entry / pageSize * pageSize) va freept
  free4k pdir
  restoreInterrupts cs
  return true

/-- Paging::MapPages. -/
def mapPages (pd va pa : ℕ) (user write : Bool) (n : ℕ) : Code (Machine T) Bool := do
  let pd ← spaceOf pd
  untilFails (fun i => mapPage pd (pageAfter va i) (pageAfter pa i) user write) (List.range n)

/-- Paging::UnMapPages. -/
def unMapPages (pd va n : ℕ) : Code (Machine T) Bool := do
  let pd ← spaceOf pd
  untilFails (fun i => unMapPage pd (pageAfter va i)) (List.range n)

/-- The directory entries of a range. -/
def tablesOf (startVA rangeSize : ℕ) : List ℕ :=
  List.range' (startVA / largePageSize)
    ((startVA + rangeSize + largePageSize - 1) % 2 ^ 32 / largePageSize - startVA / largePageSize)

/-- Whether an address is outside a range. -/
def outside (va startVA rangeSize : ℕ) : Bool :=
  va < startVA || (startVA + rangeSize) % 2 ^ 32 ≤ va

/-- One turn of the inner loop of Paging::UnmapRange. -/
def unmapEntry (dir startVA rangeSize pdidx ptidx : ℕ) : Code (Machine T) Unit := do
  let va := pdidx * largePageSize + ptidx * pageSize
  if outside va startVA rangeSize then return ()
  let ptpa := (← readWord dir pdidx) / pageSize * pageSize
  let pt ← alloc4k ptpa
  let pa := (← readWord pt ptidx) / pageSize * pageSize
  let _ ← freeFrame pa
  writeWord pt ptidx 0
  let freept := tableEmpty ((← get).paging.get pt)
  free4k pt
  dropTable dir pdidx ptpa va freept

/-- One turn of the outer loop of Paging::UnmapRange. -/
def unmapTable (dir startVA rangeSize pdidx : ℕ) : Code (Machine T) Unit := do
  if ¬Present (← readWord dir pdidx) then return ()
  (List.range 1024).forM fun ptidx => unmapEntry dir startVA rangeSize pdidx ptidx

/-- Paging::UnmapRange. -/
def unmapRange (pd startVA rangeSize : ℕ) : Code (Machine T) Unit := do
  let pd ← spaceOf pd
  let cs ← disableInterrupts
  let dir ← alloc4k pd
  (tablesOf startVA rangeSize).forM fun pdidx => unmapTable dir startVA rangeSize pdidx
  free4k dir
  restoreInterrupts cs

/-- One turn of the loops of Paging::CloneRange. It returns from the function when there is
no frame. -/
def cloneEntry (cs : Bool) (dir dstPd startVA rangeSize pdidx ptidx : ℕ) :
    Code (Machine T) Bool := do
  let va := pdidx * largePageSize + ptidx * pageSize
  if outside va startVA rangeSize then return true
  let entry ← readWord dir pdidx
  if ¬Present entry then return true
  let pt ← alloc4k (entry / pageSize * pageSize)
  let pte ← readWord pt ptidx
  let dpa ← allocFrame
  if dpa = noFrame then
    free4k pt
    free4k dir
    restoreInterrupts cs
    return false
  free4k pt
  let src ← alloc4k (pte / pageSize * pageSize)
  let dst ← alloc4k dpa
  modifyPaging fun p =>
    { p with word := Function.update p.word (p.frameAt dst) (p.word (p.frameAt src)) }
  free4k dst
  free4k src
  let _ ← mapPage dstPd va dpa (pte.testBit 2) (pte.testBit 1)
  return true

/-- Paging::CloneRange. -/
def cloneRange (dstPd startVA rangeSize : ℕ) : Code (Machine T) Unit := do
  let dstPd ← spaceOf dstPd
  let cs ← disableInterrupts
  let dir ← alloc4k (← get).paging.cr3
  let done ← untilFails (fun pdidx =>
    untilFails (fun ptidx => cloneEntry cs dir dstPd startVA rangeSize pdidx ptidx)
      (List.range 1024)) (tablesOf startVA rangeSize)
  if !done then return ()
  free4k dir
  restoreInterrupts cs

/-- Paging::GetPhysicalAddress. -/
def getPhysicalAddress (pd va : ℕ) : Code (Machine T) ℕ := do
  let pd ← spaceOf pd
  let cs ← disableInterrupts
  let pdir ← alloc4k pd
  let entry ← readWord pdir (va / largePageSize)
  if ¬Present entry then
    free4k pdir
    restoreInterrupts cs
    return noFrame
  free4k pdir
  let pt ← alloc4k (entry / pageSize * pageSize)
  let pte ← readWord pt (va / pageSize % 1024)
  if ¬Present pte then
    free4k pt
    restoreInterrupts cs
    return noFrame
  free4k pt
  restoreInterrupts cs
  return (pte / pageSize * pageSize + va % pageSize) % 2 ^ 32

/-- Paging::BuildAddressSpace. -/
def buildAddressSpace (as : ℕ) : Code (Machine T) Unit := do
  match (← get).paging.buildAddressSpace as with
  | none => stuck
  | some p => modifyPaging fun _ => p

/-! ### DMA memory -/

/-- DMA_HEAP_START. -/
def dmaHeapStart : ℕ := 0xCE000000

/-- The loop of Paging::AllocDMA over dmaPtrList: the address of new memory, and the block
it comes before, if any. -/
def placeDMA (size : ℕ) : List (ℕ × ℕ) → ℕ × Option (ℕ × ℕ)
  | [] => (dmaHeapStart,none)
  | [ph] => ((ph.1 + ph.2) % 2 ^ 32,none)
  | ph :: next :: phs =>
    let blockEnd := (ph.1 + ph.2) % 2 ^ 32
    if (blockEnd + size) % 2 ^ 32 ≤ next.1 then (blockEnd,some next)
    else placeDMA size (next :: phs)

/-- List::InsertBefore. Two blocks are the same if their addresses are. -/
def insertBefore (new : ℕ × ℕ) (ph : ℕ × ℕ) : List (ℕ × ℕ) → List (ℕ × ℕ)
  | [] => [new]
  | x :: xs => if x.1 = ph.1 then new :: x :: xs else x :: insertBefore new ph xs

/-- dmaPtrList with a new block. -/
def addDMA (size : ℕ) (phs : List (ℕ × ℕ)) : List (ℕ × ℕ) :=
  match placeDMA size phs with
  | (va,none) => phs ++ [(va,size)]
  | (va,some next) => insertBefore (va,size) next phs

/-- Paging::AllocDMA. -/
def allocDMA (size alignment : ℕ) : Code (Machine T) ℕ := do
  if size = 0 then return 0
  let size := (size + (pageSize - 1)) % 2 ^ 32 / pageSize * pageSize
  let pa ← allocFramesAligned (size / pageSize) alignment
  if pa = noFrame then return 0
  let ints ← disableInterrupts
  let phs := (← get).dmaPtrList
  let va := (placeDMA size phs).1
  modify fun m => { m with dmaPtrList := addDMA size phs }
  let _ ← mapPages (← get).paging.cr3 va pa false true (size / pageSize)
  restoreInterrupts ints
  return va

/-- Paging::GetDMAPhysicalAddress. -/
def getDMAPhysicalAddress (ptr : ℕ) : Code (Machine T) ℕ := do
  getPhysicalAddress (← get).paging.cr3 ptr

/-- Paging::FreeDMA. -/
def freeDMA (ptr : ℕ) : Code (Machine T) Unit := do
  let ints ← disableInterrupts
  let phs := (← get).dmaPtrList
  match phs.find? fun ph => ph.1 = ptr with
  | none => restoreInterrupts ints
  | some ph =>
    if ph.1 = 0 ∨ ph.2 = 0 then
      restoreInterrupts ints
      return ()
    modify fun m => { m with dmaPtrList := phs.eraseP fun x => x.1 = ptr }
    let as := (← get).paging.cr3
    let pa ← getPhysicalAddress as ptr
    if pa = noFrame then
      restoreInterrupts ints
      return ()
    let _ ← unMapPages as ptr (ph.2 / pageSize)
    let _ ← freeFrames pa (ph.2 / pageSize)
    restoreInterrupts ints

/-! ### The calls -/

/-- The calls. -/
inductive Call (T : Type) where
  /-- Thread::GetByID. -/
  | getByID (id : ℤ)
  /-- Thread::GetCurrent. -/
  | getCurrent
  /-- Thread::Suspend. -/
  | suspend (t : T)
  /-- Thread::Resume. -/
  | resume (t : T) (prepend : Bool)
  /-- Thread::QuickResume. -/
  | quickResume (t : T)
  /-- Thread::TicksSleep. -/
  | ticksSleep (t : T) (ticks : ℕ) (interruptible : Bool)
  /-- Thread::Enable. -/
  | enable (t : T)
  /-- Mutex::Acquire. -/
  | acquire (i timeout : ℕ) (tryAcquire : Bool)
  /-- Mutex::Release. -/
  | release (i : ℕ)
  /-- Mutex::Cancel. -/
  | cancelMutex (i : ℕ) (t : T)
  /-- Semaphore::Wait. -/
  | wait (i timeout : ℕ) (tryWait disableInts : Bool)
  /-- Semaphore::Signal. -/
  | signal (i : ℕ) (state : Bool)
  /-- Semaphore::Cancel. -/
  | cancelSemaphore (i : ℕ) (t : T)
  /-- Semaphore::Reset. -/
  | reset (i : ℕ) (count : ℤ)
  /-- Signal::Raise. -/
  | raise (t : T) (signum : ℕ)
  /-- Paging::AllocFrame. -/
  | allocFrame
  /-- Paging::AllocFrame with an alignment. -/
  | allocFrameAligned (alignment : ℕ)
  /-- Paging::AllocFrames. -/
  | allocFrames (n : ℕ)
  /-- Paging::AllocFrames with an alignment. -/
  | allocFramesAligned (n alignment : ℕ)
  /-- Paging::FreeFrame. -/
  | freeFrame (pa : ℕ)
  /-- Paging::FreeFrames. -/
  | freeFrames (pa n : ℕ)
  /-- Paging::GetTotalFrames. -/
  | getTotalFrames
  /-- Paging::GetFreeFrames. -/
  | getFreeFrames
  /-- Paging::GetUsedFrames. -/
  | getUsedFrames
  /-- Paging::MapPage. -/
  | mapPage (pd va pa : ℕ) (user write : Bool)
  /-- Paging::UnMapPage. -/
  | unMapPage (pd va : ℕ)
  /-- Paging::MapPages. -/
  | mapPages (pd va pa : ℕ) (user write : Bool) (n : ℕ)
  /-- Paging::UnMapPages. -/
  | unMapPages (pd va n : ℕ)
  /-- Paging::UnmapRange. -/
  | unmapRange (pd startVA rangeSize : ℕ)
  /-- Paging::CloneRange. -/
  | cloneRange (dstPd startVA rangeSize : ℕ)
  /-- Paging::GetPhysicalAddress. -/
  | getPhysicalAddress (pd va : ℕ)
  /-- Paging::BuildAddressSpace. -/
  | buildAddressSpace (as : ℕ)
  /-- Paging::AllocDMA. -/
  | allocDMA (size alignment : ℕ)
  /-- Paging::GetDMAPhysicalAddress. -/
  | getDMAPhysicalAddress (ptr : ℕ)
  /-- Paging::FreeDMA. -/
  | freeDMA (ptr : ℕ)

section Calls

variable {T : Type} [DecidableEq T]

/-- A call that does not take a unit of a semaphore. -/
def without {A : Type} (c : Code (Machine T) A) : Code (Machine T) Bool := do
  let _ ← c
  return false

/-- A call. The result says whether Semaphore::Wait took a unit. -/
def Call.run (idle : T) : Call T → Code (Machine T) Bool
  | .getByID id => without (InterruptFlag.getByID id)
  | .getCurrent => without InterruptFlag.getCurrent
  | .suspend t => without (InterruptFlag.suspend t)
  | .resume t prepend => without (InterruptFlag.resume t prepend)
  | .quickResume t => without (InterruptFlag.quickResume idle t)
  | .ticksSleep t ticks interruptible =>
    without (InterruptFlag.ticksSleep t ticks interruptible)
  | .enable t => without (InterruptFlag.enable t)
  | .acquire i timeout tryAcquire => without (InterruptFlag.acquire i timeout tryAcquire)
  | .release i => without (InterruptFlag.release i)
  | .cancelMutex i t => without (InterruptFlag.cancelMutex i t)
  | .wait i timeout tryWait disableInts => do
    return (← InterruptFlag.wait i timeout tryWait disableInts).toBool
  | .signal i state => without (InterruptFlag.signal idle i state)
  | .cancelSemaphore i t => without (InterruptFlag.cancelSemaphore i t)
  | .reset i count => without (InterruptFlag.reset i count)
  | .raise t signum => without (InterruptFlag.raise t signum)
  | .allocFrame => without InterruptFlag.allocFrame
  | .allocFrameAligned alignment => without (InterruptFlag.allocFrameAligned alignment)
  | .allocFrames n => without (InterruptFlag.allocFrames n)
  | .allocFramesAligned n alignment => without (InterruptFlag.allocFramesAligned n alignment)
  | .freeFrame pa => without (InterruptFlag.freeFrame pa)
  | .freeFrames pa n => without (InterruptFlag.freeFrames pa n)
  | .getTotalFrames => without InterruptFlag.getTotalFrames
  | .getFreeFrames => without InterruptFlag.getFreeFrames
  | .getUsedFrames => without InterruptFlag.getUsedFrames
  | .mapPage pd va pa user write => without (InterruptFlag.mapPage pd va pa user write)
  | .unMapPage pd va => without (InterruptFlag.unMapPage pd va)
  | .mapPages pd va pa user write n => without (InterruptFlag.mapPages pd va pa user write n)
  | .unMapPages pd va n => without (InterruptFlag.unMapPages pd va n)
  | .unmapRange pd startVA rangeSize => without (InterruptFlag.unmapRange pd startVA rangeSize)
  | .cloneRange dstPd startVA rangeSize => without (InterruptFlag.cloneRange dstPd startVA rangeSize)
  | .getPhysicalAddress pd va => without (InterruptFlag.getPhysicalAddress pd va)
  | .buildAddressSpace as => without (InterruptFlag.buildAddressSpace as)
  | .allocDMA size alignment => without (InterruptFlag.allocDMA size alignment)
  | .getDMAPhysicalAddress ptr => without (InterruptFlag.getDMAPhysicalAddress ptr)
  | .freeDMA ptr => without (InterruptFlag.freeDMA ptr)

/-- Whether a call is to leave interrupts disabled when it takes a unit. -/
def Call.disableInts : Call T → Bool
  | .wait _ _ _ disableInts => disableInts
  | _ => false

end Calls

end WootOs.InterruptFlag
