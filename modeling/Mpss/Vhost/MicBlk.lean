import Mathlib.Algebra.Order.Ring.Int

namespace Mpss.Vhost.MicBlk

def SECTOR_SIZE : Nat := 512

def VIRTIO_BLK_T_IN : Nat := 0
def VIRTIO_BLK_T_OUT : Nat := 1
def VIRTIO_BLK_T_FLUSH : Nat := 4

def VIRTIO_BLK_S_OK : Nat := 0
def VIRTIO_BLK_S_IOERR : Nat := 1

structure Iov where
  base : Nat
  len : Nat
  deriving DecidableEq

def calculateLen (iov : List Iov) : Nat := (iov.map Iov.len).sum

structure Outhdr where
  type : Nat
  sector : Nat

inductive Kind
  | read
  | write
  | flush
  deriving DecidableEq

/-- The order in which the bits of a type are looked at. -/
def kind (type : Nat) : Kind :=
  if type &&& VIRTIO_BLK_T_FLUSH ≠ 0 then .flush
  else if type &&& VIRTIO_BLK_T_OUT ≠ 0 then .write
  else .read

/-- What a card queues: a header, the descriptors it lets the host read and those it lets it
write. -/
structure Chain where
  hdr : Outhdr
  out : List Iov
  inn : List Iov

def Chain.buffers (c : Chain) : List Iov :=
  if c.hdr.type = VIRTIO_BLK_T_IN then c.inn.dropLast else c.out.tail

/-- The header comes first and alone or with the data, the status last and alone or with the
data. -/
structure Chain.WellFormed (c : Chain) : Prop where
  header : (c.out.map Iov.len).head? = some 16
  alone : if c.hdr.type = VIRTIO_BLK_T_IN then c.out.length = 1 else c.inn.length = 1
  status : (c.inn.map Iov.len).getLast? = some 1
  sectors : calculateLen c.buffers % SECTOR_SIZE = 0

instance (c : Chain) : Decidable c.WellFormed :=
  decidable_of_iff (_ ∧ _ ∧ _ ∧ _)
    ⟨fun h => ⟨h.1,h.2.1,h.2.2.1,h.2.2.2⟩,fun h => ⟨h.header,h.alone,h.status,h.sectors⟩⟩

/-- A `vhost_blk_io` of one request. `status` is behind the data; `chain` and `seq` tell the
request. -/
structure Vbio (φ : Type) where
  blk : Nat
  file : φ
  head : Nat
  type : Nat
  sector : Nat
  len : Nat
  iov : List Iov
  status : Iov
  chain : Chain
  seq : Nat

/-- A `vhost_blk_io` in a workqueue: the one of a request, or one that was made for several. -/
structure Work (φ : Type) where
  blk : Nat
  file : φ
  type : Nat
  sector : Nat
  iov : List Iov
  entries : List (Vbio φ)

/-- How a request was carried out and completed. -/
structure Completion (φ : Type) where
  req : Vbio φ
  ring : Nat
  head : Nat
  status : Nat
  statusAt : Nat × Iov
  kind : Kind
  file : φ
  aper : Nat
  pos : Nat
  iov : List Iov
  ret : Option Nat
  moved : Nat

/-- The queues are the same for all cards. `works` is in the order of queueing, of which a card
takes its own; `handed` records the requests handed over. -/
structure State (φ : Type) where
  readQueue : List (Vbio φ)
  writeQueue : List (Vbio φ)
  works : List (Work φ)
  completed : List (Completion φ)
  handed : List (Vbio φ)

def init : State φ := ⟨[],[],[],[],[]⟩

def insertToQueue (vbio : Vbio φ) : List (Vbio φ) → List (Vbio φ)
  | [] => [vbio]
  | entry :: queue =>
    if entry.sector > vbio.sector then vbio :: entry :: queue else entry :: insertToQueue vbio queue

def Work.single (vbio : Vbio φ) : Work φ := ⟨vbio.blk,vbio.file,vbio.type,vbio.sector,vbio.iov,[vbio]⟩

/-- The card, the file, the type and the sector of the first. -/
def Work.merged (entry : Vbio φ) (queue : List (Vbio φ)) : Work φ :=
  ⟨entry.blk,entry.file,entry.type,entry.sector,(entry :: queue).flatMap Vbio.iov,entry :: queue⟩

def mergeAndHandoffWork (alloc : Bool) : List (Vbio φ) → List (Work φ)
  | [] => []
  | [vbio] => [.single vbio]
  | entry :: queue => if alloc then [.merged entry queue] else (entry :: queue).map .single

def adjacent (vbio entry : Vbio φ) : Bool := (vbio.sector + vbio.len / SECTOR_SIZE) % 2 ^ 64 =
    entry.sector

/-- The loop of `start_io`: `start` and `vbio` are the run so far, which is cut off in front of an
entry that does not follow `vbio`. -/
def startLoop (start : List (Vbio φ)) (vbio : Vbio φ) : List (Vbio φ) → List (List (Vbio φ))
  | [] => [start ++ [vbio]]
  | entry :: queue =>
    if adjacent vbio entry then startLoop (start ++ [vbio]) entry queue
    else (start ++ [vbio]) :: startLoop [] entry queue

def startRuns : List (Vbio φ) → List (List (Vbio φ))
  | [] => []
  | entry :: queue => startLoop [] entry queue

def startIo (alloc : List (Vbio φ) → Bool) (queue : List (Vbio φ)) : List (Work φ) :=
  (startRuns queue).flatMap fun start => mergeAndHandoffWork (alloc start) start

variable (file : Nat → φ)

def fillVbio (blk head : Nat) (chain : Chain) (iov : List Iov) (nvecs seq : Nat) : Vbio φ where
  blk := blk
  file := file blk
  head := head
  type := chain.hdr.type
  sector := chain.hdr.sector
  len := calculateLen (iov.take nvecs)
  iov := iov.take nvecs
  status := iov.getD nvecs ⟨0,0⟩
  chain := chain
  seq := seq

def handoffIo (s : State φ) (vbio : Vbio φ) : State φ :=
  let s := { s with handed := s.handed ++ [vbio] }
  match kind vbio.type with
  | .flush => { s with works := s.works ++ [.single vbio] }
  | .write => { s with writeQueue := insertToQueue vbio s.writeQueue }
  | .read => { s with readQueue := insertToQueue vbio s.readQueue }

/-- One iteration of `handle_blk`; without memory the descriptor goes back to the ring. -/
def handleBlk (s : State φ) (blk head : Nat) (chain : Chain) (alloc : Bool) : State φ :=
  let iov := chain.out ++ chain.inn
  let nvecs := if chain.hdr.type = VIRTIO_BLK_T_IN then chain.inn.length - 1 else chain.out.length - 1
  if alloc then handoffIo s (fillVbio file blk head chain (iov.drop 1) nvecs s.handed.length) else s

/-- The completions of the entries of a work item: entry by entry, the part of the transfer from
vector `k` on. -/
def completions (w : Work φ) (ret : Option Nat) : Nat → List (Vbio φ) → List (Completion φ)
  | _,[] => []
  | k,entry :: entries =>
    let iov := (w.iov.drop k).take entry.iov.length
    let before := calculateLen (w.iov.take k)
    { req := entry
      ring := w.blk
      head := entry.head
      status := if ret.isSome then VIRTIO_BLK_S_OK else VIRTIO_BLK_S_IOERR
      statusAt := (w.blk,entry.status)
      kind := kind w.type
      file := w.file
      aper := w.blk
      pos := (w.sector * SECTOR_SIZE + before) % 2 ^ 64
      iov := iov
      ret := ret
      moved := min (calculateLen iov) (ret.getD 0 - before) } ::
      completions w ret (k + entry.iov.length) entries

inductive Act (φ : Type)
  | request (blk head : Nat) (chain : Chain) (alloc : Bool)
  | startRead (alloc : List (Vbio φ) → Bool)
  | startWrite (alloc : List (Vbio φ) → Bool)
  | work (blk : Nat) (ret : Option Nat)

/-- `ret` of a work item is the number of bytes that were transferred, or a failure. -/
def step (s : State φ) : Act φ → Option (State φ)
  | .request blk head chain alloc =>
    if chain.WellFormed then some (handleBlk file s blk head chain alloc) else none
  | .startRead alloc => some { s with readQueue := [],works := s.works ++ startIo alloc s.readQueue }
  | .startWrite alloc =>
    some { s with writeQueue := [],works := s.works ++ startIo alloc s.writeQueue }
  | .work blk ret =>
    match s.works.find? (fun w => w.blk = blk) with
    | none => none
    | some w =>
      if ret.getD 0 ≤ calculateLen w.iov then
        some { s with
          works := s.works.eraseP (fun w => w.blk = blk)
          completed := s.completed ++ completions w ret 0 w.entries }
      else none

end Mpss.Vhost.MicBlk
