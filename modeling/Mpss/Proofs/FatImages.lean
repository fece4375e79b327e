import Mpss.Proofs.FatNames

namespace Mpss.Proofs.FatImages
open Library.Bytes Systools.FatReader Systools.FatVolume FatClusters FatNames List Option

variable {f : Stored}

/-- The name, the size and the bytes of a record. -/
def view (d : DataFile) : List Nat × Nat × List UInt8 :=
  (d.fileName.map UInt8.toNat,d.fileSize,d.rawData)

def expected (f : Stored) : List Nat × Nat × List UInt8 := (f.name,f.size,f.data)

/-- A file with a cluster if it has bytes, each of whose clusters, or all of which, is read by one
block. -/
structure Plainly (g : Geometry) (f : Stored) : Prop where
  small : g.clusterBytes ≤ 4096 ∨ f.size ≤ 4096
  placed : f.chain = [] → f.size = 0

/-- A deleted entry is no part of a long name and no archive file; of the live ones those with a
long name of several parts and those with the attributes `0x20` are archive files. -/
def SlotSound (g : Geometry) : Slot → Prop
  | .deleted rest => rest.getD 10 0 ≠ 0x0f ∧ rest.getD 10 0 ≠ 0x20
  | .live f =>
    (f.archive = true → Plainly g f) ∧
      if f.long = [] then f.archive = true → f.attributes = 0x20 ∧ Plain f
      else f.archive = true ∧ f.parts.length ≠ 1 ∧ ∀ u ∈ f.long,u.toNat < 0xff

def resume (image : List UInt8) (b : BootSector) (n : Nat) : Turn → Option (Bool × List DataFile)
  | .next w => walk image b n w
  | .stop error files => some (error,files)
  | .astray => none

theorem walk_succ : walk image b (n + 1) w = resume image b n (turn image b w) := by
  rw [walk]
  cases turn image b w with
  | next w | stop error files | astray => rfl

theorem fread_placed (h : Placed image pos text) (hl : text.length = 32) :
    fread image pos ROOTDIRSIZE = text := by
  rw [fread,ROOTDIRSIZE,← hl]
  exact h

theorem turn_entry (h : Placed image w.pos text) (hl : text.length = 32) (hf : text.getD 0 0 ≠ 0) :
    turn image b w = useEntry image b w.pos text (noteLongName { w with pos := w.pos + 32 } text) := by
  have hw : text.length = ROOTDIRSIZE := hl
  rw [turn,fread_placed h hl,if_neg (not_not.mpr hw),if_neg hf]
  rfl

theorem noteLongName_other (h : text.getD 11 0 ≠ 0x0f) : noteLongName w text = w := by
  rw [noteLongName,if_neg (fun ha => h ha.2.1),if_neg (fun ha => h ha.1)]

theorem useEntry_other (hl : text.getD 11 0 ≠ 0x0f) (ha : text.getD 11 0 ≠ 0x20) :
    useEntry image b pos text w = .next { w with error := false } := by
  rw [useEntry,if_neg (fun hal => hl hal.1),if_neg ha]

theorem useEntry_archive (ha : text.getD 11 0 = 0x20) :
    useEntry image b pos text w = addFile image b w pos text none := by
  have hl : ¬(text.getD 11 0 = 0x0f ∧ 0 < w.count) := by
    rw [ha]
    rintro ⟨h,_⟩
    exact absurd h (by decide)
  rw [useEntry,if_neg hl,if_pos ha]

theorem Laid.head (h : f.Laid image g) : f.chain.headD 0 < 2 ^ 16 := by
  have hc := h.chained
  cases hch : f.chain with
  | nil =>
    rw [headD_nil]
    omega
  | cons cluster rest =>
    rw [hch] at hc
    have hh : cluster < 0xfff7 := hc.2.1
    rw [headD_cons]
    omega

/-- Where the reader stands after some entries in which it has found some files. -/
structure Reached (w : Walk) (entries : Nat) (found : List Stored) (u : Walk) : Prop where
  pos : u.pos = w.pos + 32 * entries
  count : u.count = 0
  fileName : u.fileName = []
  error : u.error = false
  files : u.files.map view = w.files.map view ++ found.map expected

theorem addFile_spec (hb : Agrees b g) (he : image.length < g.dataStart + 65525 * g.clusterBytes)
    (hn : f.Named) (hl : f.Laid image g) (hp : Plainly g f) (pos : Nat)
    (hnm : (longName.getD (getShortNameFromEntry f.shortEntry).fileName).map UInt8.toNat = f.name)
    (hc : w.count = 0) (hf : longName = none → w.fileName = []) :
    (Readable g f → ∃ u,addFile image b w pos f.shortEntry longName = .next u ∧ Reached w 0 [f] u) ∧
      (¬Readable g f → addFile image b w pos f.shortEntry longName = .stop true w.files) := by
  have hs := shortEntry_size hn hl.size
  set e := getShortNameFromEntry f.shortEntry
  obtain ⟨hg,hbd⟩ := getFile_spec hb he hl hp.small hp.placed hs (shortEntry_cluster hn (Laid.head hl))
  constructor
  · intro hr
    obtain ⟨after,hw,hby⟩ := hg hr
    rw [addFile]
    rw [hw]
    refine ⟨_,rfl,rfl,hc,?_,rfl,?_⟩
    · cases longName with
      | none => exact hf rfl
      | some name => rfl
    have hv : view { e with
        entryPosition := some pos
        fileName := longName.getD e.fileName
        fileID := some (getFileID (longName.getD e.fileName))
        rawData := (range e.fileSize).map after } = expected f := by
      simp [view,expected,hnm,hs,hby]
    rw [map_append,map_singleton,map_singleton,hv]
  · intro hr
    rw [addFile]
    rw [hbd hr]

theorem small_marks : ∀ n < 64,UInt8.ofNat n ||| 0x40 ≠ UInt8.ofNat n ∧
    UInt8.ofNat n ≠ 0x41 := by decide

theorem large_marks : ∀ n < 64,UInt8.ofNat (0x40 + n) ||| 0x40 = UInt8.ofNat (0x40 + n) ∧
    (UInt8.ofNat (0x40 + n)).toNat - 0x40 = n ∧ UInt8.ofNat (0x40 + n) ≠ 0 ∧
    (UInt8.ofNat (0x40 + n) = 0x41 → n = 1) := by
  decide

theorem ofNat_ne_zero : ∀ n < 64,UInt8.ofNat (n + 1) ≠ 0 := by decide

theorem useEntry_part (pos : Nat) (s k : UInt8) (hp : part.length = 13) (hc : w.count = rest + 2) :
    useEntry image b pos (longEntry s k part) w =
      .next { w with count := rest + 1,fileName := kept part ++ w.fileName,error := false } := by
  have ha := longEntry_attributes s k hp
  have ho : ¬w.count = 1 := by omega
  have hps : (longEntry s k part).getD 11 0 = 0x0f ∧ 0 < w.count := ⟨ha,by omega⟩
  have hl : w.count - 1 = rest + 1 := by omega
  rw [useEntry,if_pos hps,longEntry_portion hp]
  rw [if_neg ho,hl]

theorem useEntry_last (pos : Nat) (s k : UInt8) (hp : part.length = 13) (hc : w.count = 1)
    (hs : Placed image w.pos text) (hl : text.length = 32) :
    useEntry image b pos (longEntry s k part) w =
      addFile image b { w with pos := w.pos + 32,count := 0,fileName := kept part ++ w.fileName }
        pos text (some (kept part ++ w.fileName)) := by
  have ha := longEntry_attributes s k hp
  have hps : (longEntry s k part).getD 11 0 = 0x0f ∧ 0 < w.count := ⟨ha,by omega⟩
  rw [useEntry,if_pos hps,longEntry_portion hp]
  have hw : text.length = ROOTDIRSIZE := hl
  rw [if_pos hc,fread_placed hs hl,if_neg (not_not.mpr hw)]
  rfl

theorem walk_numbered (hsm : rest ≠ []) (hpr : ∀ part ∈ rest,part.length = 13)
    (hfw : rest.length < 64) (hc : w.count = rest.length) (hln : text.length = 32)
    (hp : Placed image w.pos ((numbered k rest).flatten ++ text)) :
    ∃ u pos,u.pos = w.pos + 32 * (rest.length + 1) ∧ u.count = 0 ∧ u.files = w.files ∧
      walk image b (rest.length + n) w = resume image b n
        (addFile image b u pos text (some ((rest.reverse.map kept).flatten ++ w.fileName))) := by
  induction rest generalizing w with
  | nil => exact absurd rfl hsm
  | cons part rest ih =>
    obtain ⟨hpa,ho⟩ := forall_mem_cons.mp hpr
    rw [length_cons] at hfw hc
    have hm := small_marks (rest.length + 1) hfw
    rw [numbered,flatten_cons,append_assoc] at hp
    obtain ⟨he,ha⟩ := placed_append.mp hp
    rw [longEntry_length _ _ hpa] at ha
    have hn : noteLongName { w with pos := w.pos + 32 }
        (longEntry (UInt8.ofNat (rest.length + 1)) k part) = { w with pos := w.pos + 32 } := by
      rw [noteLongName,longEntry_first]
      rw [if_neg (fun hal => hm.2 hal.1),if_neg (fun hal => hm.1 hal.2)]
    have htr := turn_entry (b := b) he (longEntry_length _ _ hpa)
      (longEntry_first _ part ▸ ofNat_ne_zero rest.length (by omega))
    rw [hn] at htr
    cases hr : rest with
    | nil =>
      rw [hr] at ha hc htr
      refine ⟨{ w with pos := w.pos + 32 + 32,count := 0,fileName := kept part ++ w.fileName },
        w.pos,?_,rfl,rfl,?_⟩
      · rw [length_singleton]
      · have hs : Placed image (w.pos + 32) text := ha
        have hl := useEntry_last (b := b) (w := { w with pos := w.pos + 32 }) w.pos
          (UInt8.ofNat (([] : List (List UInt16)).length + 1)) k hpa hc hs hln
        rw [length_singleton,add_comm,walk_succ,htr,hl]
        simp only [reverse_singleton,map_singleton,flatten_singleton]
    | cons other more =>
      rw [hr] at ha hc htr ho hfw
      have hnx : ∃ u pos,u.pos = w.pos + 32 + 32 * ((other :: more).length + 1) ∧ u.count = 0 ∧
          u.files = w.files ∧ walk image b ((other :: more).length + n)
            { w with
              pos := w.pos + 32
              count := more.length + 1
              fileName := kept part ++ w.fileName
              error := false } = resume image b n
            (addFile image b u pos text
              (some (((other :: more).reverse.map kept).flatten ++ (kept part ++ w.fileName)))) := by
        have hst := ih (w := { w with
          pos := w.pos + 32
          count := more.length + 1
          fileName := kept part ++ w.fileName
          error := false })
        rw [hr] at hst
        exact hst (by simp) ho (by omega) rfl ha
      obtain ⟨u,pos,hps,hz,hf,hw⟩ := hnx
      refine ⟨u,pos,?_,hz,hf,?_⟩
      · rw [hps]
        simp only [length_cons]
        omega
      have ht : (part :: other :: more).length + n = ((other :: more).length + n) + 1 := by
        simp only [length_cons]
        omega
      rw [ht,walk_succ,htr,useEntry_part (w := { w with pos := w.pos + 32 }) w.pos _ k hpa hc]
      show walk image b ((other :: more).length + n) _ = _
      rw [hw]
      simp [reverse_cons,flatten_append]

/-- The turns of the loop that a slot takes: the short entry after a long name is not counted. -/
def turns : Slot → Nat
  | .deleted _ => 1
  | .live f => if f.parts = [] then 1 else f.parts.length

def found (slot : Slot) : List Stored := slot.file.toList.filter Stored.archive

/-- The walk goes on behind the slots with their files, or ends with an error because one of them
cannot be read. -/
def Walked (image : List UInt8) (b : BootSector) (g : Geometry) (w : Walk) (n turns entries : Nat)
    (files : List Stored) :
    Prop :=
  ((∀ f ∈ files,Readable g f) → ∃ u,walk image b (turns + n) w = walk image b n u ∧
    Reached w entries files u) ∧
    (¬(∀ f ∈ files,Readable g f) → ∃ files,walk image b (turns + n) w = some (true,files))

theorem parts_nil (h : f.Named) : f.parts = [] ↔ f.long = [] := by
  obtain ⟨pad,hpd,hf,hn⟩ := h.padding
  constructor
  · intro hp
    rw [hp,flatten_nil] at hf
    exact (append_eq_nil_iff.mp hf.symm).1
  intro hl
  rw [hl,hn hl,append_nil] at hf
  cases hpr : f.parts with
  | nil => rfl
  | cons part rest =>
    have hln := h.parts part (by rw [hpr]; exact mem_cons_self)
    rw [hpr,flatten_cons] at hf
    have hpa := (append_eq_nil_iff.mp hf).1
    rw [hpa] at hln
    cases hln

theorem flatten_length {parts : List (List UInt16)} (h : ∀ part ∈ parts,part.length = 13) :
    parts.flatten.length = 13 * parts.length := by
  induction parts with
  | nil => rfl
  | cons part rest ih =>
    obtain ⟨hp,hr⟩ := forall_mem_cons.mp h
    rw [flatten_cons,length_append,hp,ih hr,length_cons]
    omega

theorem parts_length (h : f.Named) : f.parts.length < 64 := by
  obtain ⟨pad,hpd,hf,_⟩ := h.padding
  have hl := h.long_length
  have hp : pad.length ≤ 12 := by
    rcases hpd with rfl | ⟨hle,_⟩
    · exact Nat.zero_le _
    · exact hle
  have hs := flatten_length h.parts
  rw [hf,length_append] at hs
  omega

theorem walked_other (hp : Placed image w.pos text) (hln : text.length = 32)
    (hf : text.getD 0 0 ≠ 0) (hl : text.getD 11 0 ≠ 0x0f) (ha : text.getD 11 0 ≠ 0x20)
    (hc : w.count = 0)
    (hn : w.fileName = []) : Walked image b g w n 1 1 [] := by
  refine ⟨fun _ => ?_,fun hno => absurd (forall_mem_nil _) hno⟩
  refine ⟨{ w with pos := w.pos + 32,error := false },?_,rfl,hc,hn,rfl,?_⟩
  · rw [add_comm,walk_succ,turn_entry hp hln hf,noteLongName_other hl,useEntry_other hl ha]
    rfl
  · rw [map_nil,append_nil]

theorem walked_added (hrd : (Readable g f → ∃ v,turn' = .next v ∧ Reached u 0 [f] v) ∧
      (¬Readable g f → turn' = .stop true u.files))
    (hw : walk image b (k + n) w = resume image b n turn') (hp : u.pos = w.pos + 32 * entries)
    (hf : u.files = w.files) : Walked image b g w n k entries [f] := by
  constructor
  · intro ha
    obtain ⟨v,hn,hrc⟩ := hrd.1 (ha f (mem_singleton.mpr rfl))
    refine ⟨v,?_,?_,hrc.count,hrc.fileName,hrc.error,?_⟩
    · rw [hw,hn]
      rfl
    · rw [hrc.pos,hp,mul_zero,add_zero]
    · rw [hrc.files,hf]
  · intro hno
    have hb : ¬Readable g f := fun hr => hno (fun x hx => mem_singleton.mp hx ▸ hr)
    refine ⟨u.files,?_⟩
    rw [hw,hrd.2 hb]
    rfl

theorem attributes_ne (h : f.Named) : f.attributes ≠ 0x0f := by
  intro he
  apply h.attributes
  rw [he]
  rfl

theorem turn_first (hpr : part.length = 13) (hf : m + 2 < 64)
    (hn : w.fileName = []) (hp : Placed image w.pos
    (longEntry (UInt8.ofNat (0x40 + (m + 2))) k part)) :
    turn image b w =
      .next { w with pos := w.pos + 32,count := m + 1,fileName := kept part,error := false } := by
  obtain ⟨hm,hv,hz,ho⟩ := large_marks (m + 2) hf
  have ha := longEntry_attributes (UInt8.ofNat (0x40 + (m + 2))) k hpr
  have hnt : noteLongName { w with pos := w.pos + 32 }
      (longEntry (UInt8.ofNat (0x40 + (m + 2))) k part) =
      { w with pos := w.pos + 32,count := m + 2 } := by
    rw [noteLongName,longEntry_first]
    rw [if_neg (fun hal => absurd (ho hal.1) (by omega)),if_pos ⟨ha,hm⟩,hv]
  rw [turn_entry hp (longEntry_length _ _ hpr) hz,hnt,useEntry_part w.pos _ k hpr rfl]
  rw [hn,append_nil]

section
variable (hb : Agrees b g) (hen : image.length < g.dataStart + 65525 * g.clusterBytes)
  (hn : f.Named) (hld : f.Laid image g) (hsn : SlotSound g (.live f))
include hb hen hn hld hsn

theorem walked_plain (hl : f.long = [])
    (hp : Placed image w.pos f.shortEntry) (hc : w.count = 0) (hnm : w.fileName = []) :
    Walked image b g w n 1 1 (found (.live f)) := by
  obtain ⟨hpl,hs⟩ := hsn
  rw [if_pos hl] at hs
  have hat := shortEntry_attributes hn
  have hnt : f.shortEntry.getD 11 0 ≠ 0x0f := by
    rw [hat]
    exact attributes_ne hn
  by_cases ha : f.archive = true
  · obtain ⟨hbt,hpn⟩ := hs ha
    have hf : found (.live f) = [f] := by simp [found,Slot.file,ha]
    have hex : ((none : Option (List UInt8)).getD (getShortNameFromEntry f.shortEntry).fileName).map
        UInt8.toNat = f.name := by rw [getD_none,shortEntry_name hn hpn,Stored.name,if_pos hl]
    have had := addFile_spec (w := { w with pos := w.pos + 32 }) hb hen hn hld (hpl ha) w.pos hex
      hc (fun _ => hnm)
    rw [hf]
    refine walked_added had ?_ rfl rfl
    rw [add_comm,walk_succ,turn_entry hp (shortEntry_length hn) (shortEntry_first hn),
      noteLongName_other hnt,useEntry_archive (hat.trans hbt)]
  · have hf : found (.live f) = [] := by simp [found,Slot.file,ha]
    have ho : f.shortEntry.getD 11 0 ≠ 0x20 := by
      rw [hat]
      intro he
      apply ha
      rw [Stored.archive,he]
      rfl
    rw [hf]
    exact walked_other hp (shortEntry_length hn) (shortEntry_first hn) hnt ho hc hnm

theorem walked_long (hln : f.long ≠ [])
    (hpl : Placed image w.pos (Slot.live f).entries.flatten) (hnm : w.fileName = []) :
    Walked image b g w n f.parts.length (f.parts.length + 1) (found (.live f)) := by
  obtain ⟨hpy,hs⟩ := hsn
  rw [if_neg hln] at hs
  obtain ⟨ha,hsv,hlw⟩ := hs
  have hf : found (.live f) = [f] := by simp [found,Slot.file,ha]
  have hfw := parts_length hn
  have hsm : f.parts ≠ [] := fun hp => hln ((parts_nil hn).mp hp)
  have hal : ∀ part ∈ f.parts.reverse,part.length = 13 :=
    fun part hp => hn.parts part (mem_reverse.mp hp)
  have hr : f.parts.reverse.length = f.parts.length := length_reverse
  have hk := kept_parts hn hlw
  rw [Slot.entries,Stored.longEntries,flatten_append,flatten_singleton] at hpl
  cases hrv : f.parts.reverse with
  | nil => exact absurd (reverse_eq_nil_iff.mp hrv) hsm
  | cons part rest =>
    rw [hrv] at hpl hal hr
    obtain ⟨hpa,ho⟩ := forall_mem_cons.mp hal
    cases hrs : rest with
    | nil =>
      rw [hrs,length_singleton] at hr
      exact absurd hr.symm hsv
    | cons other more =>
      rw [hrs] at hpl ho hr hrv
      have hc : f.parts.length = (other :: more).length + 1 := by
        rw [← hr]
        rfl
      rw [flatten_cons,append_assoc] at hpl
      obtain ⟨he,haf⟩ := placed_append.mp hpl
      rw [longEntry_length _ _ hpa] at haf
      have hl : more.length + 2 < 64 := by
        rw [length_cons] at hc
        omega
      have htr := turn_first (b := b) hpa hl hnm he
      obtain ⟨u,pos,hps,hz,hfl,hw⟩ := walk_numbered (b := b) (n := n)
        (w := { w with
          pos := w.pos + 32,count := more.length + 1,fileName := kept part,error := false })
        (cons_ne_nil other more) ho (by rw [length_cons]; omega) rfl (shortEntry_length hn) haf
      have hj : ((other :: more).reverse.map kept).flatten ++
        kept part = (f.parts.map kept).flatten := by
        have hpr : f.parts = (other :: more).reverse ++
          [part] := by rw [← reverse_cons,← hrv,reverse_reverse]
        rw [hpr,map_append,flatten_append,map_singleton,flatten_singleton]
      dsimp only at hw hps
      rw [hj] at hw
      have hex : ((some (f.parts.map kept).flatten).getD
          (getShortNameFromEntry f.shortEntry).fileName).map
          UInt8.toNat = f.name := by rw [getD_some,hk,Stored.name,if_neg hln]
      have had := addFile_spec (w := u) hb hen hn hld (hpy ha) pos hex hz
        nofun
      rw [hf]
      refine walked_added had ?_ ?_ hfl
      · have ht : f.parts.length + n = ((other :: more).length + n) + 1 := by omega
        rw [ht,walk_succ,htr]
        exact hw
      · omega

end

end Mpss.Proofs.FatImages
