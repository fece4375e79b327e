import Mpss.Library.Bytes

namespace Mpss.Vnet.VethDma
open Library.Bytes Function

def DMA_ALIGNMENT : Nat := 64
def ETH_HLEN : Nat := 14
def VNET_MAX_SKBS : Nat := 62

def align (n : Nat) : Nat := (n + DMA_ALIGNMENT - 1) / DMA_ALIGNMENT * DMA_ALIGNMENT

/-- An `sk_buff` that a node was asked to send: where its bytes are, and how many packets it had
accepted before. -/
structure Packet (β : Type) where
  id : Nat
  data : Nat
  bytes : List β

/-- A buffer: an `rx_node` of the node that posts it, a `dma_node` of the node that fills it. -/
structure Buf where
  phys : Nat
  size : Nat

def Buf.Apart (a b : Buf) : Prop := a.phys + a.size ≤ b.phys ∨ b.phys + b.size ≤ a.phys
deriving Decidable

structure SchedNode (β : Type) where
  skb : Packet β
  buf : Buf
  skbDataAligned : Nat
  dmaSize : Nat
  dmaDst : Nat
  dmaOffset : Nat

def schedNode (skb : Packet β) (dnode : Buf) : SchedNode β :=
  let skbDataAligned := skb.data / DMA_ALIGNMENT * DMA_ALIGNMENT
  let dmaDst := align dnode.phys
  { skb := skb
    buf := dnode
    skbDataAligned := skbDataAligned
    dmaSize := align (skb.bytes.length + (skb.data - skbDataAligned))
    dmaDst := dmaDst
    dmaOffset := (skb.data - skbDataAligned) + (dmaDst - dnode.phys) }

/-- `MICVNET_MSG_ADD_DMA_BUFFER` and `MICVNET_MSG_DMA_COMPLETE`. The receiver of the second uses
`dst_phys`, `size` and `dma_offset` of the node alone. -/
inductive Msg (β : Type)
  | addDmaBuffer (buf : Buf)
  | dmaComplete (snode : SchedNode β)

variable (n : SchedNode β)

def SchedNode.dstPhys : Nat := n.buf.phys

def SchedNode.size : Nat := n.skb.bytes.length

/-- A node of the link. `engine` holds what its channel has not completed, `ring` the other node's
messages, `bh` whether `micvnet_intr_bh_handler` is queued. The fields behind `rxDropped` record
what has happened. -/
structure Node (β : Type) where
  rxSkb : List Buf
  dmaBuf : List Buf
  txSkb : List (Packet β)
  schedSkb : List (SchedNode β)
  cntDmaBufAvail : Nat
  cntDmaComplete : Nat
  engine : List (SchedNode β)
  ring : List (Msg β)
  bh : Bool
  mem : Memory β
  txDropped : Nat
  rxDropped : Nat
  accepted : List (Packet β)
  delivered : List (Nat × List β)
  lostTx : List (Packet β)
  lostRx : List (Packet β)
  refused : Nat
  complete : List (SchedNode β)

/-- The two nodes: `true` is the host and `false` the card. The other end of `x` is `!x`. -/
abbrev Net (β : Type) := Bool → Node β

/-- The link is up: both nodes have posted their buffers and told the other one. -/
def linkup (bufs : Bool → List Buf) (mem : Bool → Memory β) : Net β := fun x =>
  { rxSkb := bufs x
    dmaBuf := []
    txSkb := []
    schedSkb := []
    cntDmaBufAvail := 0
    cntDmaComplete := 0
    engine := []
    ring := (bufs (!x)).map .addDmaBuffer
    bh := true
    mem := mem x
    txDropped := 0
    rxDropped := 0
    accepted := []
    delivered := []
    lostTx := []
    lostRx := []
    refused := 0
    complete := [] }

variable (s : Net β) (x : Bool)

/-- `micvnet_msg_send_msg`: without a power reference, which only the host needs, no interrupt is
sent. -/
def sendMsg (msg : Msg β) (ref : Bool) : Net β :=
  update s (!x) { s (!x) with ring := (s !x).ring ++ [msg],bh := (s !x).bh || !x || ref }

def micvnetXmit (n : Node β) (data : Nat) (bytes : List β) (alloc : Bool) : Node β :=
  if n.cntDmaBufAvail = 0 ∨ ¬ alloc then { n with
    txDropped := n.txDropped + 1,refused := n.refused + 1 }
  else
    let skb : Packet β := ⟨n.accepted.length,data,bytes⟩
    { n with
      txSkb := n.txSkb ++ [skb]
      cntDmaBufAvail := n.cntDmaBufAvail - 1
      accepted := n.accepted ++ [skb] }

/-- What can fail in `micvnet_schedule_dma`: the power reference and the mapping of the host, the
node, the channel or the request. -/
structure Outcomes where
  ref : Bool
  snode : Bool
  map : Bool
  dma : Bool

/-- `micvnet_schedule_dma`; there is no result where `BUG_ON` stops the system. -/
def micvnetScheduleDma (host : Bool) (n : Node β) (o : Outcomes) : Option (Node β) :=
  match n.txSkb with
  | [] => none
  | skb :: txSkb =>
    let errExit : Node β :=
      { n with
        txSkb := txSkb
        cntDmaBufAvail := n.cntDmaBufAvail + 1
        txDropped := n.txDropped + 1
        lostTx := n.lostTx ++ [skb] }
    if host ∧ ¬ o.ref then some errExit
    else
      match n.dmaBuf with
      | [] => none
      | dnode :: dmaBuf =>
        if dnode.size < skb.bytes.length + 3 * DMA_ALIGNMENT then some errExit
        else if ¬ o.snode ∨ host ∧ ¬ o.map ∨ ¬ o.dma then some errExit
        else
          some { n with
            txSkb := txSkb
            dmaBuf := dmaBuf
            schedSkb := n.schedSkb ++ [schedNode skb dnode]
            engine := n.engine ++ [schedNode skb dnode] }

/-- The channel copies from the aligned address on; around the packet it finds whatever is there. -/
def SchedNode.dma (around : Nat → β) (m : Memory β) : Memory β :=
  let lead := n.skb.data - n.skbDataAligned
  blit m n.dmaDst (fun j => if j < lead then around j else n.skb.bytes.getD (j - lead)
    (around j)) n.dmaSize

def dmaCompletion (around : Nat → β) : Option (Net β) :=
  match (s x).engine with
  | [] => none
  | snode :: engine =>
    let s := update s (!x) { s (!x) with mem := snode.dma around (s !x).mem }
    some (update s x
      { s x with
        engine := engine
        cntDmaComplete := (s x).cntDmaComplete + 1
        complete := (s x).complete ++ [snode] })

def micvnetDmaCbBh (ref : Bool) : Option (Net β) :=
  if (s x).cntDmaComplete = 0 then none
  else
    match (s x).schedSkb with
    | [] => none
    | snode :: schedSkb =>
      let s := update s x
        { s x with schedSkb := schedSkb,cntDmaComplete := (s x).cntDmaComplete - 1 }
      some (sendMsg s x (.dmaComplete snode) ref)

def recvAddDmaBuffer (n : Node β) (buf : Buf) : Node β :=
  if n.dmaBuf.length ≥ VNET_MAX_SKBS then n
  else { n with dmaBuf := n.dmaBuf ++ [buf],cntDmaBufAvail := n.cntDmaBufAvail + 1 }

/-- `x` puts a buffer at the back of its list and tells the other node. -/
def post (rxSkb : List Buf) (rnode : Buf) (ref : Bool) : Net β :=
  sendMsg (update s x { s x with rxSkb := rxSkb ++ [rnode] }) x (.addDmaBuffer rnode) ref

/-- The loop that skips buffers in `micvnet_msg_handle_ooo_msg`. -/
def skipTo (phys : Nat) (ref : Bool) (x : Bool) : Nat → Net β → Net β
  | 0,s => s
  | fuel + 1,s =>
    match (s x).rxSkb with
    | [] => s
    | rnode :: rxSkb =>
      if rnode.phys = phys then s else skipTo phys ref x fuel (post s x rxSkb rnode ref)

/-- The node without a packet that it drops; `skb` records which one. -/
def dropRx (skb : Packet β) : Net β :=
  update s x { s x with rxDropped := (s x).rxDropped + 1,lostRx := (s x).lostRx ++ [skb] }

/-- `micvnet_msg_handle_ooo_msg`: whether the message is to be processed. -/
def handleOooMsg (snode : SchedNode β) (ref : Bool) : Net β × Bool :=
  match (s x).rxSkb with
  | [] => (s,true)
  | rnode :: rxSkb =>
    if rnode.phys = snode.dstPhys ∧ snode.size + 3 * DMA_ALIGNMENT ≤ rnode.size ∧
        snode.dmaOffset < 2 * DMA_ALIGNMENT then (s,true)
    else if rnode.phys = snode.dstPhys then (dropRx (post s x rxSkb rnode ref) x snode.skb,false)
    else if (s x).rxSkb.any (fun rnode => rnode.phys = snode.dstPhys) then
      (skipTo snode.dstPhys ref x (s x).rxSkb.length s,true)
    else (dropRx s x snode.skb,false)

def received (m : Memory β) (rnode : Buf) (snode : SchedNode β) : List β :=
  (List.range snode.size).map fun i => m (rnode.phys + snode.dmaOffset + i)

/-- The second half of `micvnet_msg_recv_dma_complete`; `alloc` is the memory for a new buffer and
the MTU of the moment. -/
def recvDmaComplete (snode : SchedNode β) (alloc : Option (Nat × Nat)) (ref : Bool) :
    Option (Net β) :=
  match (s x).rxSkb with
  | [] => none
  | rnode :: rxSkb =>
    match alloc with
    | none => some (dropRx (post s x rxSkb rnode ref) x snode.skb)
    | some (phys,mtu) =>
      let fresh : Buf := ⟨phys,mtu + 3 * DMA_ALIGNMENT + ETH_HLEN⟩
      if ∀ b ∈ (s x).rxSkb,b.Apart fresh then
        let s := post s x rxSkb fresh ref
        some (update s x { s x with
          delivered := (s x).delivered ++ [(snode.skb.id,received (s x).mem rnode snode)] })
      else none

inductive Act (β : Type)
  | xmit (x : Bool) (data : Nat) (bytes : List β) (alloc : Bool)
  | schedule (x : Bool) (o : Outcomes)
  | completion (x : Bool) (around : Nat → β)
  | callback (x : Bool) (ref : Bool)
  | message (x : Bool) (alloc : Option (Nat × Nat)) (ref : Bool)
  | handled (x : Bool)

/-- A turn of one of the loops of the work items is a step. Memory that is allocated is memory that
no posted buffer occupies. -/
def step : Act β → Option (Net β)
  | .xmit x data bytes alloc => some (update s x (micvnetXmit (s x) data bytes alloc))
  | .schedule x o => (micvnetScheduleDma x (s x) o).map (update s x)
  | .completion x around => dmaCompletion s x around
  | .callback x ref => micvnetDmaCbBh s x ref
  | .message x alloc ref =>
    if (s x).bh = false then none
    else
      match (s x).ring with
      | [] => none
      | msg :: ring =>
        let s := update s x { s x with ring := ring }
        match msg with
        | .addDmaBuffer buf => some (update s x (recvAddDmaBuffer (s x) buf))
        | .dmaComplete snode =>
          let r := handleOooMsg s x snode ref
          if r.2 then recvDmaComplete r.1 x snode alloc ref else some r.1
  | .handled x =>
    if (s x).bh ∧ (s x).ring.isEmpty then some (update s x { s x with bh := false }) else none

end Mpss.Vnet.VethDma
