import Mpss.Library.Runs
import Mpss.Proofs.FatImages

namespace Mpss.Proofs.FatExact
open Library.Runs Library.Bytes Systools.FatReader Systools.FatVolume FatClusters FatNames
  FatImages List

variable {image : List UInt8} {g : Geometry} {b : BootSector} {v : Volume} {w : Walk}

/-- What the reader needs of a volume. -/
structure Sound (v : Volume) : Prop where
  slots : ∀ slot ∈ v.slots,SlotSound v.geometry slot
  sectors : v.geometry.rootEntries * 32 % v.geometry.sectorSize = 0
  near : v.geometry.rootStart < 2 ^ 32
  marked : v.entries.length < v.geometry.rootEntries ∨ ∀ f,.live f ∈ v.slots → f.long = []

theorem longEntries_length {f : Stored} : f.longEntries.length = f.parts.length := by
  have hn : ∀ (k : UInt8) (parts : List (List UInt16)),(numbered k parts).length = parts.length := by
    intro k parts
    induction parts with
    | nil => rfl
    | cons part rest ih => rw [numbered,length_cons,ih,length_cons]
  have hr : f.parts.reverse.length = f.parts.length := length_reverse
  unfold Stored.longEntries
  cases hp : f.parts.reverse with
  | nil =>
    rw [hp] at hr
    exact hr
  | cons part rest =>
    rw [hp] at hr
    rw [length_cons,hn,← length_cons (a := part),hr]

theorem Walked.append (h : Walked image b g w (t' + n) t e files)
    (hrs : ∀ u,Reached w e files u → Walked image b g u n t' e' more) :
    Walked image b g w n (t + t') (e + e') (files ++ more) := by
  obtain ⟨hg,hb⟩ := h
  rw [← add_assoc] at hg hb
  by_cases hfr : ∀ f ∈ files,Readable g f
  · obtain ⟨u,hw,hu⟩ := hg hfr
    obtain ⟨hg',hb'⟩ := hrs u hu
    constructor
    · intro ha
      obtain ⟨x,hx,hr⟩ := hg' (fun f hf => ha f (mem_append_right _ hf))
      refine ⟨x,hw.trans hx,?_,hr.count,hr.fileName,hr.error,?_⟩
      · rw [hr.pos,hu.pos]
        omega
      · rw [hr.files,hu.files,map_append,append_assoc]
    · intro hno
      have hl : ¬∀ f ∈ more,Readable g f := by
        intro ha
        apply hno
        exact forall_mem_append.mpr ⟨hfr,ha⟩
      obtain ⟨x,hx⟩ := hb' hl
      exact ⟨x,hw.trans hx⟩
  · refine ⟨fun ha => absurd (fun f hf => ha f (mem_append_left _ hf)) hfr,?_⟩
    intro _
    exact hb hfr

/-- What is known of a slot of a volume that the image holds. -/
structure Known (image : List UInt8) (g : Geometry) (slot : Slot) : Prop where
  sound : SlotSound g slot
  deleted : ∀ rest,slot = .deleted rest → rest.length = 31
  named : ∀ f,slot = .live f → f.Named
  laid : ∀ f,slot = .live f → f.Laid image g

theorem walked_slot (hb : Agrees b g) (hen : image.length < g.dataStart + 65525 * g.clusterBytes)
    (h : Known image g slot) (hpl : Placed image w.pos slot.entries.flatten) (hc : w.count = 0)
    (hnm : w.fileName = []) : Walked image b g w n (turns slot) slot.entries.length (found slot) := by
  cases slot with
  | deleted rest =>
    have hln : (0xe5 :: rest).length = 32 := by rw [length_cons,h.deleted rest rfl]
    rw [Slot.entries,flatten_singleton] at hpl
    obtain ⟨hl,ha⟩ := h.sound
    exact walked_other hpl hln (show (0xe5 : UInt8) ≠ 0 by decide) hl ha hc hnm
  | live f =>
    have hn := h.named f rfl
    have hld := h.laid f rfl
    have he : (Slot.live f).entries.length = f.parts.length + 1 := by
      rw [Slot.entries,length_append,longEntries_length]
      rfl
    rw [turns,he]
    by_cases hl : f.long = []
    · have hpr := (parts_nil hn).mpr hl
      have hpn : Placed image w.pos f.shortEntry := by
        rw [Slot.entries,Stored.longEntries,hpr] at hpl
        simpa using hpl
      rw [if_pos hpr,hpr]
      exact walked_plain hb hen hn hld h.sound hl hpn hc hnm
    · have hpr : f.parts ≠ [] := fun hp => hl ((parts_nil hn).mp hp)
      rw [if_neg hpr]
      exact walked_long hb hen hn hld h.sound hl hpl hnm

theorem walked_slots (hb : Agrees b g) (hed : image.length < g.dataStart + 65525 * g.clusterBytes)
    (hsm : slots ≠ []) (h : ∀ slot ∈ slots,Known image g slot)
    (hsz : ∀ slot ∈ slots,∀ entry ∈ slot.entries,entry.length = 32)
    (hp : Placed image w.pos (slots.flatMap Slot.entries).flatten) (hc : w.count = 0)
    (hn : w.fileName = []) :
    Walked image b g w n (slots.map turns).sum (slots.flatMap Slot.entries).length
    (slots.flatMap found) := by
  induction slots generalizing w n with
  | nil => exact absurd rfl hsm
  | cons slot rest ih =>
    obtain ⟨hsl,hrs⟩ := forall_mem_cons.mp h
    obtain ⟨hs,hr⟩ := forall_mem_cons.mp hsz
    rw [flatMap_cons,flatten_append] at hp
    obtain ⟨hh,ha⟩ := placed_append.mp hp
    have hby : slot.entries.flatten.length = 32 * slot.entries.length := by
      have hal := hs
      generalize slot.entries = entries at hal
      induction entries with
      | nil => rfl
      | cons entry entries ihe =>
        obtain ⟨hen,he⟩ := forall_mem_cons.mp hal
        rw [flatten_cons,length_append,hen,ihe he,length_cons]
        omega
    rw [hby] at ha
    rw [map_cons,sum_cons,flatMap_cons,length_append,flatMap_cons]
    have hf : ∀ m,Walked image b g w m (turns slot) slot.entries.length (found slot) := fun m =>
      walked_slot hb hed hsl hh hc hn
    cases rest with
    | nil =>
      have ho := hf n
      simpa using ho
    | cons other more =>
      apply Walked.append (hf _)
      intro u hu
      exact ih (cons_ne_nil other more) hrs hr (hu.pos ▸ ha) hu.count hu.fileName

theorem dataStart_eq (h : g.rootEntries * 32 % g.sectorSize = 0) :
    g.dataStart = g.rootStart + g.rootEntries * 32 := by
  have hp := g.sector_pos
  obtain ⟨q,hq⟩ := Nat.dvd_of_mod_eq_zero h
  have hqt : (g.rootEntries * 32 + g.sectorSize - 1) / g.sectorSize = q := by
    rw [hq,Nat.add_sub_assoc (by omega),Nat.mul_add_div hp,Nat.div_eq_of_lt (by omega),add_zero]
  rw [Geometry.dataStart,hqt,hq,mul_comm]

def bootOf (g : Geometry) : BootSector :=
  ⟨g.sectorSize,g.sectorPerCluster,g.reservedSec,g.numberFats,g.rootEntries,g.sectorPerFat,
    g.rootStart % 2 ^ 32⟩

theorem agrees_bootOf (hs : g.rootEntries * 32 % g.sectorSize = 0) (hn : g.rootStart < 2 ^ 31) :
    Agrees (bootOf g) g := by
  have he := g.entries_fit
  have hd := dataStart_eq hs
  have hr : g.rootStart % 2 ^ 32 = g.rootStart := Nat.mod_eq_of_lt (by omega)
  refine ⟨rfl,rfl,?_,by omega⟩
  show (g.rootStart % 2 ^ 32 + g.rootEntries * 32) % 2 ^ 32 = g.dataStart
  rw [hr,hd]
  exact Nat.mod_eq_of_lt (by omega)

theorem turns_le (slot : Slot) : turns slot ≤ slot.entries.length := by
  cases slot with
  | deleted rest => exact le_rfl
  | live f =>
    rw [turns,Slot.entries,length_append,longEntries_length,length_singleton]
    split
    all_goals omega

theorem turns_sum_le (slots : List Slot) :
    (slots.map turns).sum ≤ (slots.flatMap Slot.entries).length := by
  induction slots with
  | nil => exact le_rfl
  | cons slot rest ih =>
    have hs := turns_le slot
    rw [map_cons,sum_cons,flatMap_cons,length_append]
    omega

theorem turns_sum_eq {slots : List Slot} (h : ∀ f,.live f ∈ slots → f.parts = []) :
    (slots.map turns).sum = (slots.flatMap Slot.entries).length := by
  induction slots with
  | nil => rfl
  | cons slot rest ih =>
    have hr := ih (fun f hf => h f (.tail _ hf))
    have hs : turns slot = slot.entries.length := by
      cases slot with
      | deleted rest => rfl
      | live f =>
        have hp := h f mem_cons_self
        rw [turns,if_pos hp,Slot.entries,length_append,longEntries_length,hp]
        rfl
    rw [map_cons,sum_cons,flatMap_cons,length_append,hs,hr]

theorem found_flatMap {slots : List Slot} :
    slots.flatMap found = (slots.filterMap Slot.file).filter Stored.archive := by
  induction slots with
  | nil => rfl
  | cons slot rest ih =>
    rw [flatMap_cons,ih]
    cases slot with
    | deleted _ => rfl
    | live f =>
      show [f].filter Stored.archive ++ _ = (f :: rest.filterMap Slot.file).filter Stored.archive
      rw [← filter_append,singleton_append]

section
variable (h : v.Holds image)
include h

theorem getRootDirOffset_eq : getRootDirOffset image = some (bootOf v.geometry) := by
  have hs := freadWord_placed h.sectorSize v.geometry.sector_fits
  have hc := freadWord_placed h.sectorPerCluster v.geometry.cluster_fits
  have hr := freadWord_placed h.reservedSec v.geometry.reserved_fits
  have hf := freadWord_placed h.numberFats v.geometry.fats_fit
  have he := freadWord_placed h.rootEntries v.geometry.entries_fit
  have ht := freadWord_placed h.sectorPerFat v.geometry.table_fits
  rw [getRootDirOffset,hs,hc,hr,hf,he,ht]
  rfl

theorem Known.ofHolds (hs : Sound v) : ∀ slot ∈ v.slots,Known image v.geometry slot := by
  intro slot hsl
  refine ⟨hs.slots slot hsl,?_,?_,?_⟩
  · intro rest he
    exact h.deleted rest (he ▸ hsl)
  · intro f he
    exact h.named f (he ▸ hsl)
  · intro f he
    exact h.laid f (he ▸ hsl)

theorem entries_length : ∀ slot ∈ v.slots,∀ entry ∈ slot.entries,entry.length = 32 := by
  intro slot hsl entry hen
  cases slot with
  | deleted rest => rw [mem_singleton.mp hen,length_cons,h.deleted rest hsl]
  | live f =>
    have hn := h.named f hsl
    have hnm : ∀ (k : UInt8) (parts : List (List UInt16)),(∀ part ∈ parts,part.length = 13) →
        ∀ entry ∈ numbered k parts,entry.length = 32 := by
      intro k parts hpr
      induction parts with
      | nil => exact forall_mem_nil _
      | cons part rest ih =>
        obtain ⟨hpa,hr⟩ := forall_mem_cons.mp hpr
        exact forall_mem_cons.mpr ⟨longEntry_length _ _ hpa,ih hr⟩
    rcases mem_append.mp hen with hl | hs
    · have ha : ∀ part ∈ f.parts.reverse,part.length = 13 := fun part hp =>
        hn.parts part (mem_reverse.mp hp)
      unfold Stored.longEntries at hl
      cases hpr : f.parts.reverse with
      | nil =>
        rw [hpr] at hl
        cases hl
      | cons part rest =>
        rw [hpr] at hl ha
        obtain ⟨hpa,hr⟩ := forall_mem_cons.mp ha
        rcases mem_cons.mp hl with he | hm
        · rw [he]
          exact longEntry_length _ _ hpa
        · exact hnm _ rest hr entry hm
    · rw [mem_singleton.mp hs]
      exact shortEntry_length hn

theorem walk_end (hs : Sound v) (hps : w.pos = v.geometry.rootStart + 32 * v.entries.length)
    (ht : (v.slots.map turns).sum + n = v.geometry.rootEntries)
    (her : v.slots ≠ [] → w.error = false) :
    ∃ error,walk image b n w = some (error,w.files) ∧ (v.slots ≠ [] → error = false) := by
  have hd := dataStart_eq hs.sectors
  have hrt := h.root
  have hsm := turns_sum_le v.slots
  by_cases hfl : v.entries.length < v.geometry.rootEntries
  · have he : v.entries.length = (v.slots.flatMap Slot.entries).length := rfl
    cases n with
    | zero => omega
    | succ n =>
      have hm := h.mark hfl
      rw [← hps] at hm
      have hln : (fread image w.pos ROOTDIRSIZE).length = ROOTDIRSIZE := by
        rw [fread,length_take,length_drop,ROOTDIRSIZE]
        omega
      have hz : (fread image w.pos ROOTDIRSIZE).getD 0 0 = 0 := by
        have ho : (fread image w.pos ROOTDIRSIZE).take 1 = [0] := by
          rw [fread,take_take]
          exact hm
        cases hr : fread image w.pos ROOTDIRSIZE with
        | nil => rfl
        | cons c rest =>
          rw [hr] at ho
          cases ho
          rfl
      refine ⟨false,?_,fun _ => rfl⟩
      rw [walk_succ,turn,if_neg (not_not.mpr hln),if_pos hz]
      rfl
  · have hn : ∀ f,.live f ∈ v.slots → f.parts = [] := by
      intro f hf
      rcases hs.marked with hl | hp
      · exact absurd hl hfl
      · exact (parts_nil (h.named f hf)).mpr (hp f hf)
    have ha := turns_sum_eq hn
    have he : v.entries.length = (v.slots.flatMap Slot.entries).length := rfl
    have hz : n = 0 := by omega
    rw [hz]
    exact ⟨w.error,rfl,her⟩

end

def call (files : List DataFile) (image : Option (List UInt8)) : Option (List DataFile) :=
  (process files image).map Prod.snd

/-- What `process` returns for a volume, and the files it leaves in the reader. -/
structure Exactly (v : Volume) (ok : Bool) (files : List DataFile) : Prop where
  exact : ok = true → files.map view = v.archives.map expected
  short : (∃ f ∈ v.archives,f.complete v.geometry = false) → ok = false
  accepts : v.geometry.rootStart < 2 ^ 31 → v.archives ≠ [] →
    (∀ f ∈ v.archives,Readable v.geometry f) → ok = true

theorem Exactly.refused (hb : v.geometry.rootStart < 2 ^ 31 → v.archives ≠ [] →
    ¬∀ f ∈ v.archives,Readable v.geometry f) (files : List DataFile) : Exactly v false files :=
  ⟨nofun,fun _ => rfl,fun hn hs ha => absurd ha (hb hn hs)⟩

theorem walk_exact (h : v.Holds image) (hsn : Sound v) (hn : v.geometry.rootStart < 2 ^ 31)
    (hps : w.pos = v.geometry.rootStart) (hcn : w.count = 0) (hnm : w.fileName = [])
    (hfl : w.files = []) :
    ∃ error files,walk image (bootOf v.geometry) v.geometry.rootEntries w = some (error,files) ∧
      Exactly v (!error && !files.isEmpty) files := by
  have hsu := turns_sum_le v.slots
  have he : v.entries.length = (v.slots.flatMap Slot.entries).length := rfl
  have ha : v.slots.flatMap found = v.archives := found_flatMap
  have hr : (v.slots.map turns).sum + (v.geometry.rootEntries - (v.slots.map turns).sum) =
      v.geometry.rootEntries := by
    have := h.count
    omega
  by_cases hs : v.slots = []
  · have hnn : v.archives = [] := by rw [← ha,hs]; rfl
    have hz : (v.slots.map turns).sum + v.geometry.rootEntries = v.geometry.rootEntries := by
      rw [hs]
      exact zero_add _
    have hst : w.pos = v.geometry.rootStart + 32 * v.entries.length := by
      rw [he,hs]
      exact hps
    obtain ⟨error,hw,_⟩ := walk_end (b := bootOf v.geometry) h hsn hst hz (fun hno => absurd hs hno)
    refine ⟨error,w.files,hw,?_⟩
    rw [hfl,isEmpty_nil,Bool.not_true,Bool.and_false]
    exact Exactly.refused (fun _ hsm => absurd hnn hsm) []
  · have hp : Placed image w.pos (v.slots.flatMap Slot.entries).flatten := hps ▸ h.entries
    obtain ⟨hg,hb⟩ := walked_slots (n := v.geometry.rootEntries - (v.slots.map turns).sum)
      (agrees_bootOf hsn.sectors hn) h.clusters hs (Known.ofHolds h hsn) (entries_length h) hp hcn hnm
    rw [hr,ha] at hg hb
    by_cases hal : ∀ f ∈ v.archives,Readable v.geometry f
    · obtain ⟨u,hw,hu⟩ := hg hal
      have hup : u.pos = v.geometry.rootStart + 32 * v.entries.length := by rw [hu.pos,hps,he]
      obtain ⟨error,hen,her⟩ := walk_end (b := bootOf v.geometry) h hsn hup hr (fun _ => hu.error)
      have hv : u.files.map view = v.archives.map expected := by rw [hu.files,hfl,map_nil,nil_append]
      refine ⟨error,u.files,hw.trans hen,fun _ => hv,?_,?_⟩
      · rintro ⟨f,hf,hsh⟩
        have hc := (hal f hf).1
        rw [hsh] at hc
        cases hc
      · intro _ hsm _
        have hl := congrArg length hv
        rw [length_map,length_map] at hl
        have hfi : u.files ≠ [] := by
          intro hno
          rw [hno] at hl
          exact hsm (eq_nil_of_length_eq_zero hl.symm)
        rw [her hs,Bool.not_false,Bool.true_and,Bool.not_eq_true']
        exact isEmpty_eq_false_iff.mpr hfi
    · obtain ⟨files,hw⟩ := hb hal
      exact ⟨true,files,hw,Exactly.refused (fun _ _ => hal) files⟩

/-- On a reader without records, the call on an image of a sound volume returns, and what it
returns and leaves is exact. -/
theorem image_files_exact {calls : List (Option (List UInt8))} {files : List DataFile}
    (hcalls : exec call [] calls = some files)
    (hallow : Along call (fun files _ => files = []) [] (calls ++ [some image]))
    (hholds : v.Holds image) (hsound : Sound v) :
    ∃ ok after,process files (some image) = some (ok,after) ∧ Exactly v ok after := by
  have hnn : files = [] := (hallow.split hcalls).2.1
  have hr : v.geometry.rootStart % 2 ^ 32 = v.geometry.rootStart := Nat.mod_eq_of_lt hsound.near
  rw [hnn,process]
  rw [getRootDirOffset_eq hholds]
  by_cases hn : v.geometry.rootStart < 2 ^ 31
  · have hs : fseek 32 (bootOf v.geometry).rootDirAddr = some v.geometry.rootStart := by
      show fseek 32 (v.geometry.rootStart % 2 ^ 32) = _
      rw [hr,fseek,if_pos hn]
    dsimp only
    rw [hs]
    obtain ⟨error,files,hw,hex⟩ := walk_exact (w := ⟨v.geometry.rootStart,0,[],fun _ => 0,[],true⟩)
      hholds hsound hn rfl rfl rfl rfl
    have he : (bootOf v.geometry).rootEntries = v.geometry.rootEntries := rfl
    dsimp only
    rw [he,hw]
    exact ⟨_,files,rfl,hex⟩
  · have hs : fseek 32 (bootOf v.geometry).rootDirAddr = none := by
      show fseek 32 (v.geometry.rootStart % 2 ^ 32) = _
      rw [hr,fseek,if_neg hn]
    dsimp only
    rw [hs]
    exact ⟨false,[],rfl,Exactly.refused (fun hno => absurd hno hn) []⟩

def small : Geometry :=
  ⟨512,1,1,1,16,1,by decide,by decide,⟨0,rfl⟩,by decide,by decide,by decide,by decide,by decide⟩

def sector (bytes : List UInt8) : List UInt8 := bytes ++ List.replicate (512 - bytes.length) 0

def imageOf (table : List UInt8) (entries : List (List UInt8))
    (clusters : List (List UInt8)) : List UInt8 :=
  sector (List.replicate 11 0 ++ [0,2,1,1,0,1,16,0,0,0,0,1,0]) ++ sector table ++
    sector entries.flatten ++ (clusters.map sector).flatten

def times : List UInt8 := List.replicate 13 0

def units (text : String) : List UInt16 := text.toList.map (fun c => UInt16.ofNat c.toNat)

/-- A file with a long name of two parts and a chain of two clusters that are not neighbours. -/
def tempFile : Stored :=
  ⟨ascii "IFLASH~1",ascii "EFI",false,false,0x20,times,units "iflash32_temp.efi",
    [units "iflash32_temp",units ".efi" ++ 0 :: List.replicate 8 0xffff],513,[2,4],
    List.replicate 512 7 ++ [9]⟩

def scriptFile : Stored := ⟨ascii "FABA",ascii "NSH",true,true,0x20,times,[],[],3,[3],[1,2,3]⟩

def goodVolume : Volume := ⟨small,[.live tempFile,.live scriptFile]⟩

def goodImage : List UInt8 :=
  imageOf [0xf8,0xff,0xff,0xff,4,0,0xff,0xff,0xff,0xff] goodVolume.entries
    [List.replicate 512 7,[1,2,3],[9]]

theorem units_of_all [DecidablePred p] {long : List UInt16}
    (h : long.all (p ·) = true) : ∀ u ∈ long,p u :=
  fun u hu => of_decide_eq_true (all_eq_true.mp h u hu)

theorem tempFile_named : tempFile.Named := by
  refine ⟨by decide,by decide,by decide,by decide,⟨73,rfl,by decide⟩,by decide,rfl,by decide,
    units_of_all rfl,by decide,?_⟩
  exact ⟨0 :: replicate 8 0xffff,.inr ⟨by decide,8,rfl⟩,by decide,nofun⟩

theorem scriptFile_named : scriptFile.Named :=
  ⟨by decide,by decide,by decide,by decide,⟨70,rfl,by decide⟩,by decide,rfl,by decide,
    units_of_all rfl,by decide,[],.inl rfl,rfl,fun _ => rfl⟩

theorem tempFile_laid : tempFile.Laid goodImage small := by
  refine ⟨by decide,by decide +kernel,?_,?_⟩
  · exact ⟨by decide,by decide,⟨4,by decide,by decide +kernel,rfl⟩,by decide,by decide,
      ⟨0xffff,by decide,by decide +kernel,by decide⟩,trivial⟩
  · exact ⟨by decide +kernel,by decide +kernel,trivial⟩

theorem scriptFile_laid : scriptFile.Laid goodImage small := by
  refine ⟨by decide,by decide,?_,?_⟩
  · exact ⟨by decide,by decide,⟨0xffff,by decide,by decide +kernel,by decide⟩,trivial⟩
  · exact ⟨by decide +kernel,trivial⟩

theorem goodVolume_holds : goodVolume.Holds goodImage := by
  constructor
  case deleted =>
    intro rest hr
    rcases mem_cons.mp hr with he | he
    · cases he
    · cases mem_singleton.mp he
  case named =>
    intro f hf
    rcases mem_cons.mp hf with he | he
    · cases he
      exact tempFile_named
    · cases mem_singleton.mp he
      exact scriptFile_named
  case laid =>
    intro f hf
    rcases mem_cons.mp hf with he | he
    · cases he
      exact tempFile_laid
    · cases mem_singleton.mp he
      exact scriptFile_laid
  all_goals decide +kernel

theorem goodVolume_sound : Sound goodVolume := by
  refine ⟨?_,rfl,by decide,.inl (by decide)⟩
  intro slot hs
  rcases mem_cons.mp hs with he | he
  · rw [he]
    refine ⟨fun _ => ⟨.inl (by decide),nofun⟩,?_⟩
    exact ⟨rfl,by decide,units_of_all rfl⟩
  · rw [mem_singleton.mp he]
    refine ⟨fun _ => ⟨.inl (by decide),nofun⟩,?_⟩
    exact fun _ => ⟨rfl,by decide,by decide,by decide,by decide⟩

theorem good_image_exact : goodVolume.archives.length = 2 ∧
    ∃ ok after,process [] (some goodImage) = some (ok,after) ∧ Exactly goodVolume ok after := by
  have hc : exec call [] ([] : List (Option (List UInt8))) = some [] := rfl
  exact ⟨rfl,image_files_exact hc ⟨rfl,fun _ _ => trivial⟩ goodVolume_holds goodVolume_sound⟩

def toolFile : Stored :=
  ⟨ascii "IPMI",ascii "EFI",false,false,0x20,times,units "ipmi.efi",
    [units "ipmi.efi" ++ 0 :: List.replicate 4 0xffff],3,[2],[1,2,3]⟩

/-- What is left of the entry of a deleted file `OLD.CAP` of two bytes. -/
def oldEntry : List UInt8 := ascii "LD     CAP" ++ [0x20,0] ++ times ++ [3,0,2,0,0,0]

def editedVolume : Volume := ⟨small,[.live toolFile,.deleted oldEntry]⟩

def editedImage : List UInt8 := imageOf [0xf8,0xff,0xff,0xff,0xff,0xff,0,0] editedVolume.entries
    [[1,2,3],[4,5]]

/-- The one archive file gives a record without bytes under its long name and one under its short
name, the deleted file a third. -/
theorem edited_image_inexact : editedVolume.Holds editedImage ∧
    editedVolume.archives.map expected = [(ascii "ipmi.efi" |>.map UInt8.toNat,3,[1,2,3])] ∧
    (process [] (some editedImage)).map (fun r => (r.1,r.2.map view)) =
      some (true,[(ascii "ipmi.efi" |>.map UInt8.toNat,0,[]),
        (ascii "IPMI.EFI" |>.map UInt8.toNat,3,[1,2,3]),
        (0xe5 :: (ascii "LD.CAP" |>.map UInt8.toNat),2,[4,5])]) := by
  refine ⟨?_,by decide,by decide +kernel⟩
  constructor
  case deleted =>
    intro rest hr
    rcases mem_cons.mp hr with he | he
    · cases he
    · cases mem_singleton.mp he
      rfl
  case named =>
    intro f hf
    rcases mem_cons.mp hf with he | he
    · cases he
      refine ⟨by decide,by decide,by decide,by decide,⟨73,rfl,by decide⟩,by decide,rfl,by decide,
        units_of_all rfl,by decide,?_⟩
      exact ⟨0 :: replicate 4 0xffff,.inr ⟨by decide,4,rfl⟩,by decide,nofun⟩
    · cases mem_singleton.mp he
  case laid =>
    intro f hf
    rcases mem_cons.mp hf with he | he
    · cases he
      refine ⟨by decide,by decide,?_,⟨by decide +kernel,trivial⟩⟩
      exact ⟨by decide,by decide,⟨0xffff,by decide,by decide +kernel,by decide⟩,trivial⟩
    · cases mem_singleton.mp he
  all_goals decide +kernel

end Mpss.Proofs.FatExact
