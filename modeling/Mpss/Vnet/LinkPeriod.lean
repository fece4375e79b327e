import Mpss.Vnet.VethDma

namespace Mpss.Vnet.LinkPeriod
open Library.Bytes VethDma Function

def MICVNET_MSG_RB_SIZE : Nat := 128

/-- A message of a ring: one of those that carry traffic, `MICVNET_MSG_LINK_UP` or
`MICVNET_MSG_LINK_DOWN`. -/
inductive Frame (β : Type)
  | traffic (msg : Msg β)
  | linkUp
  | linkDown

/-- `vi_state`, from the moment a node is up until it calls `micvnet_stop_deinit`. -/
inductive LinkState
  | linkup
  | linkDown
  | beginUninit
deriving DecidableEq

/-- The indices of an `obj_list`; its `size` is one more than the objects it has. -/
structure ObjList where
  head : Nat
  tail : Nat

def ObjList.size : Nat := VNET_MAX_SKBS + 1

def listObjAlloc (l : ObjList) : Option ObjList :=
  if (l.head + 1) % ObjList.size = l.tail then none
    else some { l with head := (l.head + 1) % ObjList.size }

def listObjFree (l : ObjList) : Option ObjList :=
  if l.tail = l.head then none else some { l with tail := (l.tail + 1) % ObjList.size }

/-- What should never occur: a full ring, no free object, one freed too many, `BUG_ON`, and
unexpected parameters of `dma_complete`. -/
inductive Fault
  | rbFull
  | noObject
  | freeTooMany
  | bugOn
  | oooMsg

/-- What the single thread of `vi_wq` is in the middle of: `micvnet_schedule_dmas` has seen a
packet, or `micvnet_msg_recv_dma_complete` has a message. -/
inductive Work (β : Type)
  | idle
  | scheduling
  | handling (snode : SchedNode β)

/-- How far `micvnet_send_add_dma_buffer_messages` is: not called, about to announce a node of
`vi_rx_skb`, or at the end of the list. -/
inductive Start
  | before
  | announcing (rnode : Buf)
  | done

/-- Where `micvnet_xmit` is: outside, past the test of `cnt_dma_buf_avail`, or with the packet in
the list and the counter still to be decremented. -/
inductive Xmit
  | out
  | checked
  | queued
deriving DecidableEq

/-- A node while the link is up. `frames` is the ring that the other node writes; `passed`,
`waiting` and `stops` count the threads in `micvnet_execute_stop` before it sets the state, in its
first wait, and past the test. -/
structure Port (β : Type) where
  node : Node β
  frames : List (Frame β)
  state : LinkState
  dnodes : ObjList
  work : Work β
  start : Start
  xmit : Xmit
  passed : Nat
  waiting : Nat
  linkDownQueued : Bool
  stops : Nat
  faults : List Fault

/-- The two nodes: `true` is the host and `false` the card. -/
abbrev Period (β : Type) := Bool → Port β

/-- Both nodes are in `MICVNET_STATE_LINKUP`, and the host is about to send its messages in
`micvnet_execute_start`. -/
def linkup (bufs : Bool → List Buf) (mem : Bool → Memory β) : Period β := fun x =>
  { node := { VethDma.linkup bufs mem x with ring := [],bh := false }
    frames := []
    state := .linkup
    dnodes := ⟨0,0⟩
    work := .idle
    start := .before
    xmit := .out
    passed := 0
    waiting := 0
    linkDownQueued := false
    stops := 0
    faults := [] }

variable (p : Port β)

def Port.fault (f : Fault) : Port β := { p with faults := p.faults ++ [f] }

variable (s : Period β) (x : Bool)

/-- `micvnet_msg_send_msg`. A writer that finds the ring full waits. -/
def sendMsg (frame : Frame β) (ref : Bool) : Period β :=
  if (s !x).frames.length + 1 = MICVNET_MSG_RB_SIZE then update s x ((s x).fault .rbFull)
  else
    update s (!x)
      { s (!x) with
        frames := (s !x).frames ++ [frame]
        node := { (s !x).node with bh := (s !x).node.bh || !x || ref } }

def startAt : List Buf → Start
  | [] => .done
  | rnode :: _ => .announcing rnode

/-- One turn of `micvnet_send_add_dma_buffer_messages`; a node that is no longer in the list has
been freed. -/
def sendAddDmaBuffer (ref : Bool) : Option (Period β) :=
  match (s x).start with
  | .announcing rnode =>
    match (s x).node.rxSkb.dropWhile (fun b => b.phys ≠ rnode.phys) with
    | [] => none
    | rnode :: rest =>
      some (sendMsg (update s x { s x with start := startAt rest }) x
        (.traffic (.addDmaBuffer rnode)) ref)
  | _ => none

variable (host : Bool)

/-- The thread of `vi_wq` can take up something; on the card it is also the one that announces the
buffers. -/
def Port.free : Bool :=
  match p.work,p.start with
  | .idle,.announcing _ => host
  | .idle,_ => true
  | _,_ => false

def refuse (n : Node β) : Node β := { n with txDropped := n.txDropped + 1,refused := n.refused + 1 }

def xmitEnter (alloc : Bool) : Option (Port β) :=
  match p.xmit with
  | .out =>
    if p.node.cntDmaBufAvail = 0 ∨ ¬ alloc then some { p with node := refuse p.node }
    else some { p with xmit := .checked }
  | _ => none

def xmitQueue (data : Nat) (bytes : List β) : Option (Port β) :=
  match p.xmit with
  | .checked =>
    if p.state ≠ .linkup then some { p with node := refuse p.node,xmit := .out }
    else
      let skb : Packet β := ⟨p.node.accepted.length,data,bytes⟩
      some { p with
        node := { p.node with txSkb := p.node.txSkb ++ [skb],accepted := p.node.accepted ++ [skb] }
        xmit := .queued }
  | _ => none

def xmitLeave : Option (Port β) :=
  match p.xmit with
  | .queued =>
    some { p with node := { p.node with cntDmaBufAvail := p.node.cntDmaBufAvail - 1 },xmit := .out }
  | _ => none

/-- `micvnet_schedule_dmas` finds a packet. -/
def scheduleNext : Option (Port β) :=
  if p.free host ∧ p.node.txSkb ≠ [] then some { p with work := .scheduling } else none

/-- `micvnet_schedule_dma`: the object of a node that leaves `vi_dma_buf` is freed. -/
def scheduleDma (o : Outcomes) : Option (Port β) :=
  match p.work with
  | .scheduling =>
    let p := { p with work := .idle }
    match micvnetScheduleDma host p.node o with
    | none => some (p.fault .bugOn)
    | some node =>
      if node.dmaBuf.length = p.node.dmaBuf.length then some { p with node := node }
      else
        match listObjFree p.dnodes with
        | none => some ({ p with node := node }.fault .freeTooMany)
        | some dnodes => some { p with node := node,dnodes := dnodes }
  | _ => none

def completion (around : Nat → β) : Option (Period β) :=
  match (s x).node.engine with
  | [] => none
  | snode :: engine =>
    let peer := (s !x).node
    let self := (s x).node
    let s := update s (!x) { s (!x) with node := { peer with mem := snode.dma around peer.mem } }
    some (update s x
      { s x with
        node := { self with
          engine := engine,cntDmaComplete := self.cntDmaComplete + 1,complete :=
            self.complete ++ [snode] } })

def callback (ref : Bool) : Option (Period β) :=
  if ¬ (s x).free x ∨ (s x).node.cntDmaComplete = 0 then none
  else
    match (s x).node.schedSkb with
    | [] => none
    | snode :: schedSkb =>
      let self := { (s x).node with
        schedSkb := schedSkb,cntDmaComplete := (s x).node.cntDmaComplete - 1 }
      some (sendMsg (update s x { s x with node := self }) x (.traffic (.dmaComplete snode)) ref)

def recvAddDmaBuffer (buf : Buf) : Port β :=
  match listObjAlloc p.dnodes with
  | none => p.fault .noObject
  | some dnodes =>
    { p with
      dnodes := dnodes
      node := { p.node with dmaBuf := p.node.dmaBuf ++ [buf],cntDmaBufAvail := p.node.cntDmaBufAvail + 1 } }

/-- One turn of `micvnet_msg_process_messages`, up to the call of `micvnet_msg_recv_dma_complete`.
The host has no use for `link_up`. -/
def processMessage : Option (Port β) :=
  if ¬ p.free host ∨ p.node.bh = false then none
  else
    match p.frames with
    | [] => none
    | frame :: frames =>
      let p := { p with frames := frames }
      match frame with
      | .traffic (.addDmaBuffer buf) => some (recvAddDmaBuffer p buf)
      | .traffic (.dmaComplete snode) => some { p with work := .handling snode }
      | .linkUp => some (if host then p else { p with start := startAt p.node.rxSkb })
      | .linkDown => some { p with state := .beginUninit }

/-- Where `micvnet_msg_handle_ooo_msg` does not take its first exit the fault is recorded; what it
does then is in `VethDma.handleOooMsg`. -/
def recvDmaComplete (alloc : Option (Nat × Nat)) (ref : Bool) : Option (Period β) :=
  match (s x).work with
  | .handling snode =>
    let p := { s x with work := .idle }
    match p.node.rxSkb with
    | [] => some (update s x (p.fault .oooMsg))
    | rnode :: rxSkb =>
      if ¬ (rnode.phys = snode.dstPhys ∧ snode.size + 3 * DMA_ALIGNMENT ≤ rnode.size ∧
          snode.dmaOffset < 2 * DMA_ALIGNMENT) then some (update s x (p.fault .oooMsg))
      else
        let delivered := p.node.delivered ++ [(snode.skb.id,received p.node.mem rnode snode)]
        if p.state ≠ .linkup then
          some (update s x { p with node := { p.node with rxSkb := rxSkb,delivered := delivered } })
        else
          match alloc with
          | none =>
            let self := { p.node with
              rxSkb := rxSkb ++ [rnode],rxDropped := p.node.rxDropped + 1,lostRx :=
                p.node.lostRx ++ [snode.skb] }
            some (sendMsg (update s x { p with node := self }) x (.traffic (.addDmaBuffer rnode)) ref)
          | some (phys,mtu) =>
            let fresh : Buf := ⟨phys,mtu + 3 * DMA_ALIGNMENT + ETH_HLEN⟩
            if ∀ b ∈ p.node.rxSkb,b.Apart fresh then
              let self := { p.node with rxSkb := rxSkb ++ [fresh],delivered := delivered }
              some (sendMsg (update s x { p with node := self }) x
                (.traffic (.addDmaBuffer fresh)) ref)
            else none
  | _ => none

/-- A step of one of the threads. The waits of `micvnet_initiate_link_down` are timed: they may end
at any moment. -/
inductive Act (β : Type)
  | sendLinkUp (ref : Bool)
  | sendAddDmaBuffer (x : Bool) (ref : Bool)
  | xmitEnter (x : Bool) (alloc : Bool)
  | xmitQueue (x : Bool) (data : Nat) (bytes : List β)
  | xmitLeave (x : Bool)
  | scheduleNext (x : Bool)
  | scheduleDma (x : Bool) (o : Outcomes)
  | completion (x : Bool) (around : Nat → β)
  | callback (x : Bool) (ref : Bool)
  | processMessage (x : Bool)
  | recvDmaComplete (x : Bool) (alloc : Option (Nat × Nat)) (ref : Bool)
  | handled (x : Bool)
  | stopTest (x : Bool)
  | stopDown (x : Bool)
  | stopQueue (x : Bool)
  | sendLinkDown (x : Bool) (ref : Bool)

def step : Act β → Option (Period β)
  | .sendLinkUp ref =>
    match (s true).start with
    | .before =>
      some (sendMsg (update s true { s true with start := startAt (s true).node.rxSkb })
        true .linkUp ref)
    | _ => none
  | .sendAddDmaBuffer x ref => sendAddDmaBuffer s x ref
  | .xmitEnter x alloc => (xmitEnter (s x) alloc).map (update s x)
  | .xmitQueue x data bytes => (xmitQueue (s x) data bytes).map (update s x)
  | .xmitLeave x => (xmitLeave (s x)).map (update s x)
  | .scheduleNext x => (scheduleNext (s x) x).map (update s x)
  | .scheduleDma x o => (scheduleDma (s x) x o).map (update s x)
  | .completion x around => completion s x around
  | .callback x ref => callback s x ref
  | .processMessage x => (processMessage (s x) x).map (update s x)
  | .recvDmaComplete x alloc ref => recvDmaComplete s x alloc ref
  | .handled x =>
    if (s x).free x ∧ (s x).node.bh ∧ (s x).frames.isEmpty then
      some (update s x { s x with node := { (s x).node with bh := false } })
    else none
  | .stopTest x =>
    if (s x).state ≠ .linkDown then
      some (update s x { s x with passed := (s x).passed + 1,stops := (s x).stops + 1 })
    else none
  | .stopDown x =>
    if (s x).passed = 0 then none
    else
      some (update s x { s x with
        passed := (s x).passed - 1,waiting := (s x).waiting + 1,state := .linkDown })
  | .stopQueue x =>
    if (s x).waiting = 0 then none
    else some (update s x { s x with waiting := (s x).waiting - 1,linkDownQueued := true })
  | .sendLinkDown x ref =>
    if (s x).free x ∧ (s x).linkDownQueued then
      some (sendMsg (update s x { s x with linkDownQueued := false }) x .linkDown ref)
    else none

end Mpss.Vnet.LinkPeriod
