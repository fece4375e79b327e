import Mpss.Proofs.BlockStatus

namespace Mpss.Proofs.BlockConfined
open Mpssd.Virtio BlockStatus

/-- A request reaches nothing but the image, through no more ranges than there is room for, and only
reads a read-only image. -/
structure Confined (dev : Device) (r : Request) : Prop where
  few : ∀ fuel,(virtioBlock dev.backend r fuel).stored.length ≤ dev.page.segMax
  inside : ∀ fuel iovs,(virtioBlock dev.backend r fuel).handed = some iovs → ∀ v ∈ iovs,
    dev.backend.addr ≤ v.base ∧ v.base + v.len ≤ dev.backend.addr + dev.backend.size
  unwritten : dev.readOnly = true → ∀ fuel,∀ a ∈ (virtioBlock dev.backend r fuel).accesses,
    a.write = true → dev.backend.protWrite = true → a.len = 0

def readable : List Desc → Nat
  | [] => 0
  | d :: ds => (if d.flag VRING_DESC_F_WRITE then 0 else d.len) + readable ds

/-- A chain that ends in time and asks for nothing that the device does not have. -/
structure Modest (dev : Device) (r : Request) (bufs : List Desc) (last : Desc) : Prop where
  few : bufs.length ≤ dev.page.segMax
  inside : supported r.hdr.type = true → bufs = [] ∨
    r.hdr.sector * SECTOR_SIZE % 2 ^ 64 + total bufs ≤ dev.backend.size
  unwritten : supported r.hdr.type = true → dev.readOnly = true → readable (bufs ++ [last]) = 0 ∨
    total bufs = 0

theorem endless (h : ¬ ∃ bufs last,Buffers t i bufs last) (fos : Nat) :
    (bufferElements t fuel i fos).1.length = fuel ∧ (bufferElements t fuel i fos).2 = none := by
  induction fuel generalizing i fos with
  | zero => exact ⟨rfl,rfl⟩
  | succ fuel ih =>
    cases hgo : (t i).flag VRING_DESC_F_NEXT with
    | false => exact absurd ⟨[],t i,.last hgo⟩ h
    | true =>
      have hr : ¬ ∃ bufs last,Buffers t (nextDesc (t i)) bufs last := by
        intro ⟨bufs,last,ht⟩
        exact h ⟨_,_,.more hgo ht⟩
      obtain ⟨hl,hn⟩ := ih hr ((fos + (t i).len) % 2 ^ 64)
      rw [bufferElements_go hgo]
      exact ⟨congrArg Nat.succ hl,hn⟩

theorem Buffers_cut (h : Buffers t i bufs last) (hf : fuel ≤ bufs.length) (fos : Nat) :
    (bufferElements t fuel i fos).1.length = fuel ∧ (bufferElements t fuel i fos).2 = none := by
  induction h generalizing fuel fos with
  | last stop =>
    cases Nat.le_zero.mp hf
    exact ⟨rfl,rfl⟩
  | more go tail ih =>
    cases fuel with
    | zero => exact ⟨rfl,rfl⟩
    | succ fuel =>
      rw [bufferElements_go go]
      obtain ⟨hl,hn⟩ := ih (Nat.le_of_succ_le_succ hf) _
      exact ⟨congrArg Nat.succ hl,hn⟩

theorem collected (h : Buffers t i bufs last) (hf : bufs.length < fuel) :
    (collect t fuel i).1 = readable (bufs ++ [last]) := by
  induction h generalizing fuel with
  | last stop =>
    cases fuel with
    | zero => exact absurd hf (Nat.not_lt_zero _)
    | succ fuel =>
      simp only [collect,stop,List.nil_append,readable]
      split <;> simp
  | more go tail ih =>
    cases fuel with
    | zero => exact absurd hf (Nat.not_lt_zero _)
    | succ fuel =>
      have hr := ih (Nat.lt_of_succ_lt_succ hf)
      rw [nextDesc_go go] at hr
      simp only [collect,go,if_true,List.cons_append,readable]
      split
      · rw [hr,zero_add]
      · rw [hr,add_comm]

theorem ranges_within (hlo : lo ≤ fos) (hf : fos ≤ hi) (hhi : hi < 2 ^ 64) :
    (∀ v ∈ ranges fos bufs,lo ≤ v.base ∧ v.base + v.len ≤ hi) ↔ fos + total bufs ≤ hi := by
  induction bufs generalizing fos with
  | nil => simpa [ranges,total] using hf
  | cons d bufs ih =>
    simp only [ranges,List.forall_mem_cons,total_cons]
    by_cases hd : fos + d.len ≤ hi
    · rw [Nat.mod_eq_of_lt (hd.trans_lt hhi),ih (Nat.le_add_right_of_le hlo) hd]
      omega
    · omega

/-- The sector is multiplied without regard to overflow: the ranges are inside exactly if the
product that is left is. -/
theorem ranges_inside (b : Backend) (offset : Nat) (hne : bufs ≠ []) :
    (∀ v ∈ ranges ((b.addr + offset) % 2 ^ 64) bufs,b.addr ≤ v.base ∧ v.base + v.len ≤ b.addr +
      b.size) ↔ offset % 2 ^ 64 + total bufs ≤ b.size := by
  have hf := b.fits
  have hb : b.addr % 2 ^ 64 = b.addr := Nat.mod_eq_of_lt (by omega)
  rw [Nat.add_mod,hb]
  by_cases hs : b.addr + offset % 2 ^ 64 ≤ b.addr + b.size
  · rw [Nat.mod_eq_of_lt (by omega),ranges_within (Nat.le_add_right _ _) hs hf]
    omega
  cases bufs with
  | nil => exact absurd rfl hne
  | cons d bufs =>
    simp only [ranges,List.forall_mem_cons]
    omega

theorem ranges_sum : ((ranges fos bufs).map Iov.len).sum = total bufs := by
  induction bufs generalizing fos with
  | nil => rfl
  | cons d bufs ih => simp [ranges,ih]

/-- The host writes nothing exactly if the card gives nothing or there is no room for it. -/
theorem copy_unwritten (riov wiov : Nat) (iovs : List Iov) :
    (∀ a ∈ vopVirtioCopy riov wiov iovs,a.write = true → a.len = 0) ↔
      riov = 0 ∨ (iovs.map Iov.len).sum = 0 := by
  induction iovs generalizing riov wiov with
  | nil => simp [vopVirtioCopy]
  | cons v iovs ih =>
    simp only [vopVirtioCopy,List.forall_mem_cons,List.map_cons,List.sum_cons]
    by_cases hr : riov = 0
    · refine iff_of_true ⟨fun _ => by simp [hr],fun h => absurd h Bool.false_ne_true,?_⟩ (.inl hr)
      split
      · simp
      · exact (ih _ _).mpr (.inl (by omega))
    by_cases hv : v.len = 0
    · have hm : ¬ (riov - min v.len riov = 0 ∧ wiov - min (v.len - min v.len riov) wiov =
        0) := by omega
      rw [if_neg hm,ih]
      simp [hv]
    · refine iff_of_false (fun h => ?_) (by omega)
      have hz := h.1 trivial
      omega

theorem walking (ha : Accepted r)
    (hw : ∀ fos,(bufferElements r.table fuel (nextDesc (r.table r.head)) fos).1.length = fuel ∧
      (bufferElements r.table fuel (nextDesc (r.table r.head)) fos).2 = none) :
    ∃ iovs,iovs.length = fuel ∧ virtioBlock b r fuel = { nothing with stored := iovs } := by
  obtain ⟨hl,hn⟩ := hw ((b.addr + r.hdr.sector * SECTOR_SIZE) % 2 ^ 64)
  rcases hwl : bufferElements r.table fuel (nextDesc (r.table r.head))
    ((b.addr + r.hdr.sector * SECTOR_SIZE) % 2 ^ 64) with ⟨iovs,stop⟩
  rw [hwl] at hl hn
  cases hn
  refine ⟨iovs,hl,?_⟩
  unfold virtioBlock
  rw [if_neg (not_not.mpr (headerErrorCheck_eq_zero.mpr ha.header)),if_neg (not_lt.mpr ha.read)]
  simp only [hwl]

/-- A chain without an end overruns the entries that were allocated. -/
theorem Confined.ends (hc : Confined dev r) (ha : Accepted r) :
    ∃ bufs last,Buffers r.table (nextDesc (r.table r.head)) bufs last := by
  by_contra hn
  obtain ⟨iovs,hl,hs⟩ := walking (b := dev.backend) ha (endless hn)
  have hf := hc.few (dev.page.segMax + 1)
  rw [hs] at hf
  exact absurd (hl ▸ hf) (Nat.not_succ_le_self _)

theorem Confined.modest (hc : Confined dev r) (hp : dev.backend.protWrite = true) (ha : Accepted r)
    (h : Buffers r.table (nextDesc (r.table r.head)) bufs last) : Modest dev r bufs last := by
  have hs := served (b := dev.backend) ha h (Nat.lt_succ_self _)
  have hf := hc.few (bufs.length + 1)
  have hi := hc.inside (bufs.length + 1)
  have hu := fun hro => hc.unwritten hro (bufs.length + 1)
  simp only [hs] at hf hi hu
  refine ⟨?_,fun hsp => ?_,fun hsp hro => ?_⟩
  · split at hf <;> simpa using hf
  · by_cases hne : bufs = []
    · exact .inl hne
    · simp only [hsp,if_true] at hi
      exact .inr ((ranges_inside dev.backend _ hne).mp (hi _ rfl))
  · have hz := hu hro
    simp only [hsp,if_true] at hz
    rw [← collected h (Nat.lt_succ_self _),← ranges_sum]
    exact (copy_unwritten _ _ _).mp fun a hm hw => hz a hm hw hp

/-- The walk has come to its end, or has stored no more than one entry for each buffer. -/
theorem turns (ha : Accepted r) (h : Buffers r.table (nextDesc (r.table r.head)) bufs last)
    (fuel : Nat) : bufs.length < fuel ∨
      ∃ iovs,iovs.length ≤ bufs.length ∧ virtioBlock b r fuel = { nothing with stored := iovs } := by
  rcases lt_or_ge bufs.length fuel with hlt | hge
  · exact .inl hlt
  · obtain ⟨iovs,hl,hs⟩ := walking ha (Buffers_cut h hge)
    exact .inr ⟨iovs,hl ▸ hge,hs⟩

theorem Modest.ranges_inside (hm : Modest dev r bufs last) (hs : supported r.hdr.type = true) :
    ∀ v ∈ ranges ((dev.backend.addr + r.hdr.sector * SECTOR_SIZE) % 2 ^ 64) bufs,
      dev.backend.addr ≤ v.base ∧ v.base + v.len ≤ dev.backend.addr + dev.backend.size := by
  by_cases hn : bufs = []
  · subst hn
    exact fun v hv => absurd hv List.not_mem_nil
  · exact (BlockConfined.ranges_inside dev.backend _ hn).mpr ((hm.inside hs).resolve_left hn)

theorem Modest.confined (hm : Modest dev r bufs last) (ha : Accepted r)
    (h : Buffers r.table (nextDesc (r.table r.head)) bufs last) : Confined dev r := by
  refine ⟨fun fuel => ?_,fun fuel iovs hi => ?_,fun hro fuel a hmm hw _ => ?_⟩ <;>
    rcases turns (b := dev.backend) ha h fuel with hlt | ⟨stored,hl,hs⟩
  · rw [served ha h hlt]
    split <;> simpa using hm.few
  · rw [hs]
    exact hl.trans hm.few
  · rw [served ha h hlt] at hi
    by_cases hsp : supported r.hdr.type = true
    · simp only [hsp,if_true,Option.some.injEq] at hi
      exact hi ▸ hm.ranges_inside hsp
    · simp [hsp] at hi
  · rw [hs] at hi
    cases hi
  · rw [served ha h hlt] at hmm
    by_cases hsp : supported r.hdr.type = true
    · simp only [hsp,if_true] at hmm
      have hn := hm.unwritten hsp hro
      rw [← collected h hlt,← ranges_sum] at hn
      exact (copy_unwritten _ _ _).mpr hn a hmm hw
    · simp [hsp] at hmm
  · rw [hs] at hmm
    cases hmm

/-- A request is confined exactly if its header is refused, or its chain ends in time, inside the
image, and gives a read-only image nothing. -/
theorem confined_iff (entries : Nat) (readOnly : Bool) (addr size : Nat) (fits : addr + size < 2 ^ 64)
    (r : Request) : Confined (openBackend entries readOnly addr size fits) r ↔
      (Accepted r → ∃ bufs last,Buffers r.table (nextDesc (r.table r.head)) bufs last ∧
        Modest (openBackend entries readOnly addr size fits) r bufs last) := by
  constructor
  · intro hc ha
    obtain ⟨bufs,last,h⟩ := hc.ends ha
    exact ⟨bufs,last,h,hc.modest rfl ha h⟩
  intro hcn
  by_cases ha : Accepted r
  · obtain ⟨bufs,last,h,hm⟩ := hcn ha
    exact hm.confined ha h
  refine ⟨fun fuel => ?_,fun fuel iovs hi => ?_,fun _ fuel a hmm => ?_⟩
  · rw [refused ha]
    exact Nat.zero_le _
  · rw [refused ha] at hi
    cases hi
  · rw [refused ha] at hmm
    cases hmm

theorem read_of_second_sector_confined :
    Confined (openBackend 128 true 4096 1024 (by decide)) ⟨readTable,0,⟨0,1⟩,0,⟨0,512⟩⟩ :=
  (confined_iff 128 true 4096 1024 (by decide) _).mpr fun _ =>
    ⟨[readTable 1],readTable 2,.more rfl (.last rfl),by decide,fun _ => by decide,fun _ _ => by decide⟩

def writeTable : Table := fun i => if i = 1 then ⟨512,1,2⟩ else readTable i

def ringTable : Table := fun i => if i = 0 then ⟨16,1,1⟩ else ⟨512,3,1⟩

/-- A read behind the end of the image, a write to a read-only image and a chain without an end. -/
theorem requests_not_confined :
    ¬ Confined (openBackend 128 false 4096 1024 (by decide)) ⟨readTable,0,⟨0,7⟩,0,⟨0,512⟩⟩ ∧
    ¬ Confined (openBackend 128 true 4096 1024 (by decide)) ⟨writeTable,0,⟨1,0⟩,0,⟨0,512⟩⟩ ∧
    ¬ Confined (openBackend 128 false 4096 1024 (by decide)) ⟨ringTable,0,⟨0,0⟩,0,⟨0,512⟩⟩ := by
  refine ⟨fun h => ?_,fun h => ?_,fun h => ?_⟩
  · have ho := h.inside 2 _ rfl _ List.mem_cons_self
    exact absurd ho.2 (by decide)
  · have hw := h.unwritten rfl 2 _ List.mem_cons_self rfl rfl
    exact absurd hw (by decide)
  · exact absurd (h.few 127) (by decide +kernel)

end Mpss.Proofs.BlockConfined
