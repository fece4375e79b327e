import Mpss.Scif.Transfer

namespace Mpss.Scif.TempCache
open Scif.Window Scif.Transfer

def scifRmaUsecache : Nat := 2

def scifRmaTempCacheLimit : Nat := 0x20000

def ulongMax : Nat := 2 ^ 64 - 1

/-- The value that an `unsigned long` keeps of `n`. -/
def u64 (n : Int) : Nat := (n % 2 ^ 64).toNat

def pageAlign (n : Nat) : Nat := u64 (n + 4095) / 4096 * 4096

/-- The fields of a temporary window that the cache uses; `id` stands for its address. -/
structure TempWindow where
  id : Nat
  vaForTemp : Nat
  nrPages : Int
  prot : Nat
deriving DecidableEq

def TempWindow.endVa (w : TempWindow) : Nat := u64 (w.vaForTemp + w.nrPages * pageSize)

/-- A request for a temporary window. -/
structure TcwReq where
  vaForTemp : Nat
  nrBytes : Nat
  prot : Nat

def TcwReq.endVa (req : TcwReq) : Nat := u64 (req.vaForTemp + req.nrBytes)

/-- `struct scif_mmu_notif`: the cached windows of one address space. -/
structure MmuNotif where
  mm : Nat
  tcRegList : List TempWindow

/-- The temporary windows of one endpoint. `live` were counted as cached and still exist, `warned`
counts windows queued while on a list. -/
structure Cache where
  mmnList : List MmuNotif
  rma : List TempWindow
  rmaTc : List TempWindow
  twRefcount : Int
  tcwRefcount : Int
  tcwTotalPages : Int
  nextId : Nat
  live : List TempWindow
  warned : Nat

def Cache.init : Cache :=
  { mmnList := [],rma := [],rmaTc := [],twRefcount := 0,tcwRefcount := 0,tcwTotalPages := 0
    nextId := 0,live := [],warned := 0 }

def without (w : TempWindow) (l : List TempWindow) : List TempWindow := l.filter (fun v => v.id ≠ w.id)

variable (s : Cache)

/-- Whether `window->list` is linked. -/
def Cache.onList (w : TempWindow) : Bool :=
  s.mmnList.any (fun m => m.tcRegList.any (fun v => v.id = w.id)) ||
    s.rma.any (fun v => v.id = w.id) || s.rmaTc.any (fun v => v.id = w.id)

def Cache.listDel (w : TempWindow) : Cache :=
  { s with
    mmnList := s.mmnList.map (fun m => { m with tcRegList := without w m.tcRegList })
    rma := without w s.rma
    rmaTc := without w s.rmaTc }

/-- The two lists that windows are destroyed from. -/
inductive Queue
  | rma
  | rmaTc

def scifQueueForCleanup (w : TempWindow) (q : Queue) : Cache :=
  let t := if s.onList w then { s.listDel w with warned := s.warned + 1 } else s
  match q with
  | .rma => { t with rma := t.rma ++ [w] }
  | .rmaTc => { t with rmaTc := t.rmaTc ++ [w] }

def scifRmaDestroyTcwHelper (w : TempWindow) : Cache := scifQueueForCleanup (s.listDel w) w .rmaTc

def scifDestroyWindow (w : TempWindow) : Cache := { s with live := without w s.live }

/-- The windows that `__scif_rma_destroy_tcw` comes to and does not skip. -/
def overlapping (start stop : Nat) : List TempWindow → List TempWindow
  | [] => []
  | w :: ws =>
    if start < w.vaForTemp ∧ stop ≤ w.vaForTemp then []
    else if w.endVa ≤ start then overlapping start stop ws
    else w :: overlapping start stop ws

def scifRmaDestroyTcw (mmn : MmuNotif) (start len : Nat) : Cache :=
  let stop := u64 (start + len)
  if stop ≤ start then s else (overlapping start stop mmn.tcRegList).foldl scifRmaDestroyTcwHelper s

def scifRmaDestroyTcwEp : Cache := s.mmnList.foldl (fun t mmn => scifRmaDestroyTcw t mmn 0 ulongMax) s

/-- The DMA channel is idle, so every window is destroyed. -/
def scifRmaDestroyTcwInvalid : Cache :=
  s.rmaTc.foldl (fun t w => { scifDestroyWindow t w with
    tcwTotalPages := t.tcwTotalPages - w.nrPages,tcwRefcount := t.tcwRefcount - 1 })
      { s with rmaTc := [] }

def scifRmaDestroyWindows : Cache :=
  s.rma.foldl (fun t w => { scifDestroyWindow t w with twRefcount := t.twRefcount - 1 })
    { s with rma := [] }

variable (limit : Nat)

def scifRmaTcCanCache (s : Cache) (curBytes : Nat) : Bool × Cache :=
  let pages := curBytes >>> pageShift
  if limit < pages then (false,s)
  else if limit < u64 (s.tcwTotalPages + pages) then
    (true,scifRmaDestroyTcwEp (scifRmaDestroyTcwInvalid s))
  else (true,s)

/-- The end of `scif_insert_tcw`: before the first window that starts later. -/
def insertTcwFrom (w : TempWindow) : List TempWindow → List TempWindow
  | [] => [w]
  | v :: vs => if w.vaForTemp < v.vaForTemp then w :: v :: vs else v :: insertTcwFrom w vs

def scifInsertTcw (w : TempWindow) (head : List TempWindow) : List TempWindow :=
  match head.getLast? with
  | some v => if v.vaForTemp < w.vaForTemp then head ++ [w] else insertTcwFrom w head
  | none => insertTcwFrom w head

/-- What `scif_query_tcw` ends with: the window found, or the request to register instead and
the window that was destroyed for it. -/
inductive Tcw
  | hit (w : TempWindow)
  | miss (req : TcwReq) (destroyed : Option TempWindow)

/-- The request changed for a window that it overlaps in part. -/
def TcwReq.expand (req : TcwReq) (w : TempWindow) : TcwReq :=
  let r :=
    if req.vaForTemp < w.vaForTemp then
      { req with nrBytes := u64 (req.nrBytes + w.vaForTemp - req.vaForTemp),vaForTemp := w.vaForTemp }
    else req
  if w.endVa ≤ req.endVa then { r with nrBytes := u64 (r.nrBytes + w.endVa - req.endVa) } else r

/-- The loop of `scif_query_tcw`. -/
def queryTcwFrom (req : TcwReq) : List TempWindow → Tcw
  | [] => .miss req none
  | w :: ws =>
    if req.vaForTemp < w.vaForTemp ∧ req.endVa < w.vaForTemp then .miss req none
    else if w.endVa ≤ req.vaForTemp then queryTcwFrom req ws
    else if w.prot &&& req.prot = req.prot then
      if w.vaForTemp ≤ req.vaForTemp ∧ req.endVa ≤ w.endVa then .hit w
      else .miss (req.expand w) (some w)
    else .miss req (some w)

def scifQueryTcw (head : List TempWindow) (req : TcwReq) : Tcw :=
  if req.nrBytes = 0 then .miss req none
  else
    match head.getLast? with
    | some w => if w.endVa < req.vaForTemp then .miss req none else queryTcwFrom req head
    | none => queryTcwFrom req head

def scifFindMmuNotifier (mm : Nat) : Option MmuNotif := s.mmnList.find? (fun m => m.mm = mm)

/-- `ok` when the notifier could be allocated and registered. -/
def scifAddMmuNotifier (mm : Nat) (ok : Bool) : Cache :=
  if ok then { s with mmnList := ⟨mm,[]⟩ :: s.mmnList } else s

/-- A call of `scif_rma_copy` with a user address, and what its surroundings answer: a notifier, the
protection of the pinned pages or the error, and the results of the remote query and of the copy. -/
structure Copy where
  mm : Nat
  addr : Nat
  len : Nat
  flags : Nat
  dir : RmaDir
  notifier : Bool
  pinned : Except Int Nat
  remoteErr : Int
  copyErr : Int

variable (c : Copy)

def Copy.usecache : Bool := c.flags &&& scifRmaUsecache ≠ 0

def Copy.req : TcwReq :=
  { vaForTemp := c.addr / 4096 * 4096
    nrBytes := pageAlign (u64 (c.len + c.addr % 4096))
    prot := if c.dir = .localToRemote then vmRead else vmWrite ||| vmRead }

def scifRegisterTemp (req : TcwReq) (pinned : Except Int Nat) : Except Int TempWindow :=
  let alignedLen := pageAlign req.nrBytes
  if alignedLen = 0 then .error (-einval)
  else pinned.map (fun prot => ⟨s.nextId,req.vaForTemp,toInt32 (alignedLen >>> pageShift : Nat),prot⟩)

/-- The first part of `scif_rma_copy`: the notifier, and whether to cache the window. A
notifier that is added is not the one used. -/
def chooseCache (s : Cache) (c : Copy) : Option MmuNotif × Bool × Cache :=
  if c.usecache then
    let mmn := scifFindMmuNotifier s c.mm
    let t := if mmn.isNone then scifAddMmuNotifier s c.mm c.notifier else s
    let can := scifRmaTcCanCache limit t c.len
    (mmn,!can.1,can.2)
  else (none,false,s)

variable (mmn : Option MmuNotif)

/-- The window is counted and, with a notifier, put on its list. -/
def cacheWindow (w : TempWindow) : Cache :=
  let t := { s with
    tcwRefcount := s.tcwRefcount + 1,tcwTotalPages := s.tcwTotalPages + w.nrPages,live := w :: s.live }
  match mmn with
  | none => t
  | some mmn =>
    { t with
      mmnList := t.mmnList.map (fun m =>
        if m.mm = mmn.mm then { m with tcRegList := scifInsertTcw w m.tcRegList } else m) }

/-- The query among the windows of the notifier, if there is one. -/
def queryCached (req : TcwReq) : Tcw :=
  match mmn.bind (fun mmn => scifFindMmuNotifier s mmn.mm) with
  | some m => scifQueryTcw m.tcRegList req
  | none => .miss req none

/-- The local window of a call: one that is cached, or a new one. -/
def localWindow (cache : Bool) : Except Int TempWindow × Cache :=
  match queryCached s mmn c.req with
  | .hit w => (.ok w,s)
  | .miss req destroyed =>
    let t :=
      match destroyed with
      | some w => scifRmaDestroyTcwHelper s w
      | none => s
    match scifRegisterTemp t req c.pinned with
    | .error err => (.error err,t)
    | .ok w =>
      let u := { t with nextId := t.nextId + 1 }
      (.ok w,if cache then cacheWindow u mmn w else u)

/-- The rest of `scif_rma_copy`. -/
def useWindow (w : TempWindow) (cache : Bool) : Int × Cache :=
  if c.remoteErr ≠ 0 then (c.remoteErr,if cache then s else scifDestroyWindow s w)
  else
    (c.copyErr,
      if cache then s else scifQueueForCleanup { s with twRefcount := s.twRefcount + 1 } w .rma)

def scifRmaCopy (s : Cache) (c : Copy) : Int × Cache :=
  if c.flags ≠ 0 ∧ c.flags &&& 0xF = 0 then (-einval,s)
  else
    let start := chooseCache limit s c
    let found := localWindow start.2.2 c start.1 start.2.1
    match found.1 with
    | .error err => (err,found.2)
    | .ok w => useWindow found.2 c w start.2.1

inductive Act
  | copy (c : Copy)
  | destroyTcw (mm start len : Nat)
  | destroyWindows
  | destroyTcwInvalid

/-- `limit` is `rma_tc_limit`. -/
def Cache.step (s : Cache) : Act → Option Cache
  | .copy c => if c.addr = 0 then none else some (scifRmaCopy limit s c).2
  | .destroyTcw mm start len =>
    match scifFindMmuNotifier s mm with
    | some mmn => some (scifRmaDestroyTcw s mmn start len)
    | none => none
  | .destroyWindows => some (scifRmaDestroyWindows s)
  | .destroyTcwInvalid => some (scifRmaDestroyTcwInvalid s)

def s64 (n : Int) : Int := (n + 2 ^ 63) % 2 ^ 64 - 2 ^ 63

def endWord (w : ScifWindow) : Int := s64 (w.offset + s64 (w.nrPages * 2 ^ pageShift))

/-- The loop of `scif_query_window` on `s64` offsets and `u64` lengths: the difference of two
offsets is a `u64`. -/
def queryWords (req : ScifRmaReq) :
    List ScifWindow → Int → Nat → Option ScifWindow → Except Int (Option ScifWindow)
  | [],_,_,_ => .error (-enxio)
  | w :: ws,offset,left,out =>
    if offset < w.offset then .error (-enxio)
    else if endWord w ≤ offset then queryWords req ws offset left out
    else if w.prot &&& req.prot ≠ req.prot then .error (-eperm)
    else
      let out := if left = req.nrBytes then some w else out
      let tmpMin := min (u64 (endWord w - offset)) left
      let left := left - tmpMin
      let offset := s64 (offset + tmpMin)
      if left = 0 then
        match req.type with
        | .part | .single => .ok out
        | .full => if offset = endWord w then .ok out else .error (-enxio)
      else if req.type = .single then .error (-enxio)
      else queryWords req ws offset left out

def scifQueryWords (head : List ScifWindow) (req : ScifRmaReq) : Except Int (Option ScifWindow) :=
  if req.nrBytes = 0 then .error (-einval) else queryWords req head req.offset req.nrBytes none

end Mpss.Scif.TempCache
