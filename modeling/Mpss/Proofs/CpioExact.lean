import Mpss.Mpssconfig.Cpio

namespace Mpss.Proofs.CpioExact
open Library.Newc Mpssconfig.Miclist Mpssconfig.FileTree Mpssconfig.Cpio List Option

variable {o o1 o2 : Out} {s t : Bytes} {env : Env} {e : Entry} {leader : Name}

structure Wrote (o o' : Out) (s : Bytes) : Prop where
  bytes : o'.bytes = o.bytes ++ s
  offset : o'.offset = u32 (o.offset + s.length)
  inode : o'.inode = o.inode
  perrs : o'.perrs = o.perrs

theorem Wrote.trans (h : Wrote o o1 s) (h' : Wrote o1 o2 t) : Wrote o o2 (s ++ t) where
  bytes := by rw [h'.bytes,h.bytes,append_assoc]
  offset := by rw [h'.offset,h.offset,length_append,u32,u32,u32,Nat.mod_add_mod,add_assoc]
  inode := h'.inode.trans h.inode
  perrs := h'.perrs.trans h.perrs

theorem wrote_put (o : Out) (s : Bytes) (hn : u32 n = u32 s.length) :
    Wrote o ((o.put s).advance n) s where
  bytes := rfl
  offset := by
    show u32 (o.offset + n) = u32 (o.offset + s.length)
    rw [u32,u32,Nat.add_mod,Nat.add_mod o.offset]
    exact congrArg (fun x => (o.offset % 2 ^ 32 + x) % 2 ^ 32) hn
  inode := rfl
  perrs := rfl

theorem wrote_pad : Wrote o (o.pad k n) (List.replicate (padding k n) nul) :=
  wrote_put o _ (by rw [length_replicate])

/-- Between two entries the offset counts the bytes, and the archive is aligned. -/
structure Aligned (o : Out) : Prop where
  offset : o.offset = u32 o.bytes.length
  dvd : 4 ∣ o.bytes.length
  inode : o.inode < 2 ^ 32

theorem u32_of_lt (hn : n < 2 ^ 32) : u32 n = n := Nat.mod_eq_of_lt hn

theorem long_of_nat {n : Nat} (hn : n < 2 ^ 32) : ((n : Int) % 2 ^ 64).toNat = n := by
  have : (n : Int) % 2 ^ 64 = n := Int.emod_eq_of_lt (by omega) (by omega)
  rw [this,Int.toNat_natCast]

theorem header_fields {r : Record} (hr : r.Fits) (hc : r.check = 0) :
    Mpssconfig.Cpio.header r.ino r.mode r.uid r.gid r.nlink r.mtime r.data.length r.devmajor
      r.devminor r.rdevmajor r.rdevminor (r.name.length + 1) = r.header := by
  have hx : ∀ f ∈ r.fields,u32 f = f := fun f hf => u32_of_lt (hr f hf)
  have hlx : ∀ f ∈ r.fields,((f : Int) % 2 ^ 64).toNat = f := fun f hf => long_of_nat (hr f hf)
  simp only [Mpssconfig.Cpio.header,Record.header,Record.fields,mem_cons,not_mem_nil,or_false,
    forall_eq_or_imp,forall_eq] at hx hlx ⊢
  obtain ⟨h1,h2,-,-,h5,-,-,h8,h9,h10,h11,h12,-⟩ := hx
  obtain ⟨-,-,h3,h4,-,h6,h7,-⟩ := hlx
  rw [h1,h2,h3,h4,h5,h6,h7,h8,h9,h10,h11,h12,hc]
  simp [u32]

/-- The entry that is written for a name and data. -/
def record (time : Nat → Int) (o : Out) (mode : Nat) (st : Stat) (nlink rmajor rminor : Nat)
    (name data : Bytes) : Record where
  ino := o.inode
  mode := mode
  uid := st.uid.toNat
  gid := st.gid.toNat
  nlink := nlink
  mtime := (time o.bytes.length).toNat
  devmajor := 3
  devminor := 1
  rdevmajor := rmajor
  rdevminor := rminor
  check := 0
  name := name
  data := data

structure Entered (o o' : Out) (r : Record) : Prop where
  bytes : o'.bytes = o.bytes ++ r.encode
  aligned : Aligned o'
  fits : r.Fits
  perrs : o'.perrs = o.perrs

def InTime (time : Nat → Int) : Prop := ∀ n,0 ≤ time n ∧ time n < 2 ^ 32

variable {time : Nat → Int} {mode nlink rmajor rminor : Nat} {st : Stat} {name data : Bytes}

theorem record_fits (ht : InTime time) (ha : Aligned o) (hmd : mode < 2 ^ 32) (hl : nlink < 2 ^ 32)
    (hm : rmajor < 2 ^ 32) (hmn : rminor < 2 ^ 32) (hn : name.length + 1 < 2 ^ 32)
    (hd : data.length < 2 ^ 32) :
    (record time o mode st nlink rmajor rminor name data).Fits := by
  have htm := ht o.bytes.length
  intro f hf
  simp only [Record.fields,record,mem_cons,not_mem_nil,or_false] at hf
  rcases hf with rfl | rfl | rfl | rfl | rfl | rfl | rfl | rfl | rfl | rfl | rfl | rfl | rfl
  · exact ha.inode
  · exact hmd
  · exact st.uid.toNat_lt
  · exact st.gid.toNat_lt
  · exact hl
  · omega
  · exact hd
  · decide
  · decide
  · exact hm
  · exact hmn
  · exact hn
  · decide

theorem wrote_header (ht : InTime time)
    (hr : (record time o mode st nlink rmajor rminor name data).Fits) :
    Wrote { o with inode := u32 (o.inode + 1) } (o.header time mode st nlink data.length rmajor
      rminor (name.length + 1))
      (record time o mode st nlink rmajor rminor name data).header where
  bytes := by
    have htm := (ht o.bytes.length).1
    have hf := header_fields hr rfl
    simp only [record,Int.toNat_of_nonneg htm] at hf
    simp only [Out.header,record,hf]
  offset := by
    rw [header_length hr]
    rfl
  inode := rfl
  perrs := rfl

theorem four_dvd_word : 4 ∣ 2 ^ 32 := ⟨2 ^ 30,rfl⟩

theorem block_dvd_word : 512 ∣ 2 ^ 32 := ⟨2 ^ 23,rfl⟩

theorem wrote_push_rest (o : Out) (name : Name) :
    Wrote o (pushRest name o) ((name ++ [nul]) ++ List.replicate
    (padding 4 (110 + (name.length + 1))) nul) := by
  have hp : padding 4 (u32 (u32 (name.length + 1) + 110)) = padding 4 (110 + (name.length + 1)) := by
    rw [u32,padding_mod four_dvd_word,u32,add_comm,padding,Nat.add_mod,
      Nat.mod_mod_of_dvd _ four_dvd_word,
      ← Nat.add_mod,padding]
  rw [← hp]
  refine Wrote.trans (wrote_put o (name ++ [nul]) ?_) (wrote_pad)
  rw [length_append,length_singleton,u32,u32,Nat.mod_mod]

section
variable (ha : Aligned o)
include ha

theorem entered (hr : r.Fits) (h : Wrote { o with inode := u32 (o.inode + 1) } o1 r.encode) :
    Entered o o1 r where
  bytes := h.bytes
  aligned := by
    refine ⟨?_,?_,?_⟩
    · rw [h.offset,h.bytes,length_append]
      rw [ha.offset,u32,u32,u32,Nat.mod_add_mod]
    · rw [h.bytes,length_append]
      exact dvd_add ha.dvd (encode_dvd r hr)
    · rw [h.inode]
      exact Nat.mod_lt _ (by decide)
  fits := hr
  perrs := h.perrs

theorem padding_offset (h : Wrote { o with inode := n } o1 s) :
    padding 4 o1.offset = padding 4 s.length := by
  rw [h.offset,u32,padding_mod four_dvd_word]
  refine padding_add ?_
  rw [ha.offset,u32,Nat.dvd_mod_iff four_dvd_word]
  exact ha.dvd

theorem wrote_offset_pad (h : Wrote { o with inode := n } o1 s) :
    Wrote { o with inode := n } (o1.pad 4 o1.offset)
    (s ++ List.replicate (padding 4 s.length) nul) := by
  rw [← padding_offset ha h]
  exact h.trans (wrote_pad)

theorem entered_name_and_data (hr : r.Fits)
    (h : Wrote { o with inode := u32 (o.inode + 1) } o1 r.header) :
    Entered o (nameAndData r.name (r.name.length + 1) r.data o1) r := by
  have hn := h.trans (wrote_put o1 (r.name ++ [nul]) (n := u32 (r.name.length + 1)) (by
    rw [length_append,length_singleton,u32,u32,Nat.mod_mod]))
  have hd := (wrote_offset_pad ha hn).trans (wrote_put _ r.data (n := r.data.length) rfl)
  have hl : (r.header ++ (r.name ++ [nul])).length = 110 + (r.name.length + 1) := by
    rw [length_append,header_length hr,length_append,length_singleton]
  have hp : padding 4 (r.header ++ (r.name ++ [nul]) ++
      replicate (padding 4 (110 + (r.name.length + 1))) nul ++ r.data).length =
      padding 4 r.data.length := by
    rw [length_append,length_append,length_replicate,hl]
    exact padding_add (padding_dvd (by decide) _)
  rw [hl] at hd
  have hal := wrote_offset_pad ha hd
  rw [hp] at hal
  exact entered ha hr hal

theorem entered_push_rest (hr : r.Fits) (hd : r.data = [])
    (h : Wrote { o with inode := u32 (o.inode + 1) } o1 r.header) :
    Entered o (pushRest r.name o1) r := by
  have hal := h.trans (wrote_push_rest o1 r.name)
  refine entered ha hr ?_
  have he : r.encode = r.header ++ ((r.name ++ [nul]) ++
    replicate (padding 4 (110 + (r.name.length + 1))) nul) := by
    rw [Record.encode,hd]
    simp [padding]
  rw [he]
  exact hal

end

def typeBits (e : Entry) : Nat :=
  match e.type with
  | .dir => S_IFDIR
  | .file => S_IFREG
  | .link => S_IFLNK
  | .dnode => if e.inodeType = 'b' then S_IFBLK else S_IFCHR
  | .pipe => S_IFIFO
  | .sock => S_IFSOCK

def devMajor (dev : Nat) : Nat := dev / 2 ^ 8 % 2 ^ 12 + dev / 2 ^ 44 * 2 ^ 12
def devMinor (dev : Nat) : Nat := dev % 2 ^ 8 + dev / 2 ^ 20 % 2 ^ 24 * 2 ^ 8

def sourceStat (env : Env) (e : Entry) : Option Stat :=
  match e.type with
  | .file => (env.file (filename env e.source)).bind (fun file => file.fstat.toOption)
  | .link => (onSource env.lstat e).toOption
  | _ => (onSource env.stat e).toOption

def owner (env : Env) (e : Entry) : Option (Nat × UInt32 × UInt32) :=
  if e.uid ≠ -1 then some (e.mode,uidT e.uid,uidT e.gid) else (sourceStat env e).map
    (fun st => (st.mode,st.uid,st.gid))

def device (env : Env) (e : Entry) : Option (Nat × Nat) :=
  if e.uid ≠ -1 then some (e.major,e.minor)
  else (sourceStat env e).map (fun st => (devMajor st.rdev,devMinor st.rdev))

def content (env : Env) (e : Entry) : Option Bytes :=
  match e.type with
  | .file =>
    (env.file (filename env e.source)).bind (fun file => file.fstat.toOption.bind
      (fun st => file.read st.size))
  | .link => some (e.link ++ [nul])
  | _ => some []

/-- An entry of the archive says what there is to say about the entry of the tree at a path. -/
structure Describes (env : Env) (n : Name × Entry) (r : Record) : Prop where
  name : r.name = n.1
  owner : ∃ mode uid gid,owner env n.2 = some (mode,uid,gid) ∧
    r.mode = (mode &&& 0o777) ||| typeBits n.2 ∧ r.uid = uid.toNat ∧ r.gid = gid.toNat
  device : n.2.type = .dnode → device env n.2 = some (r.rdevmajor,r.rdevminor)
  content : content env n.2 = some r.data

/-- The path of an entry in the archive, where the leading slash is left out. -/
def pathOf (leader name : Name) : Name := (leader ++ '/' :: name).drop 1

/-- The entries of a tree with their paths, each before those below it. -/
def nodes : Tree → Name → List (Name × Entry)
  | .nil,_ => []
  | .cons e subdir next,leader =>
    (pathOf leader e.name,e) :: (nodes subdir (leader ++ '/' :: e.name) ++ nodes next leader)

/-- Only directories have entries below them. -/
def Shaped : Tree → Prop
  | .nil => True
  | .cons e subdir next => (e.type ≠ .dir → subdir = .nil) ∧ Shaped subdir ∧ Shaped next

structure Readable (env : Env) (e : Entry) : Prop where
  file : ∃ l file st l' data,env.lstat (filename env e.source) = .ok l ∧
    env.file (filename env e.source) = some file ∧
    file.fstat = .ok st ∧ env.relstat (filename env e.source) = .ok l' ∧ l'.isLink = false ∧
    st.size < 2 ^ 32 - 1 ∧
    file.read st.size = some data ∧ data.length = st.size

/-- An entry that can be put into an archive. -/
structure Ready (env : Env) (n : Name × Entry) : Prop where
  short : n.1.length + 1 < PATH_MAX
  known : (owner env n.2).isSome
  listed : n.2.type = .dnode → n.2.uid ≠ -1 → n.2.major < 2 ^ 24 ∧ n.2.minor < 2 ^ 8
  sourced : n.2.type = .dnode → n.2.uid = -1 →
    ∀ st,sourceStat env n.2 = some st → devMajor st.rdev < 2 ^ 12 ∧ devMinor st.rdev < 2 ^ 8
  file : n.2.type = .file → Readable env n.2
  link : n.2.type = .link → n.2.link.length + 1 < 2 ^ 32

theorem full_name (h : (pathOf leader name).length + 1 < PATH_MAX) :
    (fullName leader name).1.drop 1 = pathOf leader name ∧ (fullName leader name).2 =
      (pathOf leader name).length + 1 ∧
      (fullName leader name).1.length = (pathOf leader name).length + 1 := by
  have hl : (leader ++ '/' :: name).length = (pathOf leader name).length + 1 := by
    rw [pathOf,length_drop,length_append,length_cons]
    omega
  have ht : (leader ++ '/' :: name).take (PATH_MAX - 1) = leader ++ '/' :: name := by
    refine take_of_length_le ?_
    omega
  rw [fullName,ht]
  exact ⟨rfl,hl,hl⟩

theorem mode_lt (hb : bits < 2 ^ 32) : (m &&& 0o777) ||| bits < 2 ^ 32 :=
  Nat.or_lt_two_pow (lt_of_le_of_lt Nat.and_le_right (by decide)) hb

theorem type_bits_lt : typeBits e < 2 ^ 32 := by
  unfold typeBits
  split
  case h_4 => split <;> decide
  all_goals decide

theorem mkdev_numbers (hmj : major < 2 ^ 24) (hm : minor < 2 ^ 8) :
    MAJOR (MKDEV major minor) = major ∧ MINOR (MKDEV major minor) = minor := by
  have hs : major <<< 8 < 2 ^ 32 := by omega
  have hd : MKDEV major minor = major * 2 ^ 8 + minor := by
    rw [MKDEV,u32_of_lt hs,← Nat.shiftLeft_add_eq_or_of_lt hm,Nat.shiftLeft_eq]
  have hl : ∀ n,n &&& 0xff = n % 2 ^ 8 := fun n => Nat.and_two_pow_sub_one_eq_mod n 8
  rw [MAJOR,MINOR,hd,hl,Nat.shiftRight_eq_div_pow,u32]
  omega

theorem dev_numbers (hm : devMajor dev < 2 ^ 12) (hmn : devMinor dev < 2 ^ 8) :
    MAJOR dev = devMajor dev ∧ MINOR dev = devMinor dev := by
  have hl : dev &&& 0xff = dev % 2 ^ 8 := Nat.and_two_pow_sub_one_eq_mod dev 8
  rw [devMajor] at hm
  rw [devMinor] at hmn
  have hd : dev < 2 ^ 44 := by omega
  have hr : dev / 2 ^ 20 % 2 ^ 24 = dev / 2 ^ 20 := Nat.mod_eq_of_lt (by omega)
  have hs : dev < 2 ^ 20 := by omega
  rw [MAJOR,MINOR,hl,Nat.shiftRight_eq_div_pow,devMajor,devMinor,u32_of_lt (by omega),
    Nat.div_eq_of_lt hd,Nat.div_eq_of_lt hs,Nat.mod_eq_of_lt (by omega)]
  exact ⟨rfl,rfl⟩

theorem major_lt : MAJOR dev < 2 ^ 32 := Nat.mod_lt _ (by decide)

theorem minor_lt : MINOR dev < 2 ^ 32 := lt_of_le_of_lt Nat.and_le_right (by decide)

theorem attributes_owner (hsr : sourceStat env e = (onSource f e).toOption)
    (hk : (owner env e).isSome) :
    ∃ st,attributes f e = .ok st ∧ owner env e = some (st.mode,st.uid,st.gid) ∧
      (e.uid ≠ -1 → st.rdev = MKDEV e.major e.minor) ∧ (e.uid = -1 → sourceStat env e = some st) := by
  unfold attributes
  unfold owner at hk ⊢
  by_cases hu : e.uid = -1
  · rw [if_neg (not_not.mpr hu),hsr] at hk ⊢
    rw [if_neg (not_not.mpr hu)]
    cases hs : onSource f e with
    | error text =>
      rw [hs] at hk
      cases hk
    | ok st => exact ⟨st,rfl,rfl,fun h => absurd hu h,fun _ => rfl⟩
  · rw [if_pos hu,if_pos hu]
    exact ⟨_,rfl,rfl,fun _ => rfl,fun h => absurd h hu⟩

def Puts (env : Env) (leader : Name) (e : Entry) (o o' : Out) : Prop :=
  ∃ r,Entered o o' r ∧ Describes env (pathOf leader e.name,e) r

section
variable (ht : InTime env.time) (ha : Aligned o) (hr : Ready env (pathOf leader e.name,e))
include ht ha hr

section
variable (hs : sourceStat env e = (onSource env.stat e).toOption) (hc : content env e = some [])
include hs hc

theorem puts_plain {mode : Stat → Nat} (hm : ∀ st,mode st = (st.mode &&& 0o777) ||| typeBits e)
    (hln : nlink < 2 ^ 32) (hrd : ∀ st,(rdev st).1 < 2 ^ 32 ∧ (rdev st).2 < 2 ^ 32)
    (hdv : ∀ st : Stat,e.type = .dnode → (e.uid ≠ -1 → st.rdev = MKDEV e.major e.minor) →
      (e.uid = -1 → sourceStat env e = some st) → device env e = some (rdev st)) :
    Puts env leader e o (genPlain env e leader message mode nlink rdev o) := by
  obtain ⟨st,hat,ho,hl,hst⟩ := attributes_owner hs hr.known
  obtain ⟨hn,hle,-⟩ := full_name hr.short
  set name := pathOf leader e.name
  have hsh : name.length + 1 < 4096 := hr.short
  have hf : (record env.time o (mode st) st nlink (rdev st).1 (rdev st).2 name []).Fits := by
    refine record_fits ht ha ?_ hln (hrd st).1 (hrd st).2 (by omega) (by decide)
    rw [hm]
    exact mode_lt (type_bits_lt)
  have hg : genPlain env e leader message mode nlink rdev o = pushRest name
      (o.header env.time (mode st) st nlink 0 (rdev st).1 (rdev st).2 (name.length + 1)) := by
    rw [genPlain,hat]
    simp only [hn,hle]
  rw [hg]
  have he := entered_push_rest ha hf rfl (wrote_header ht hf)
  have hds : Describes env (pathOf leader e.name,e)
      (record env.time o (mode st) st nlink (rdev st).1 (rdev st).2 name []) := by
    constructor
    · rfl
    · exact ⟨st.mode,st.uid,st.gid,ho,hm st,rfl,rfl⟩
    · exact fun hd => hdv st hd hl hst
    · exact hc
  exact ⟨_,he,hds⟩

end

theorem puts_bare (hd : e.type = .dir ∨ e.type = .pipe ∨ e.type = .sock) :
    Puts env leader e o
      (genPlain env e leader message (fun st => (st.mode &&& 0o777) ||| typeBits e) 2
      (fun _ => (0,0)) o) := by
  refine puts_plain ht ha hr ?_ ?_ (fun _ => rfl) (by decide) (fun _ => by decide) (fun _ hn => ?_)
  · rcases hd with hd | hd | hd <;> rw [sourceStat,hd]
  · rcases hd with hd | hd | hd <;> rw [content,hd]
  · simp [hn] at hd

theorem puts_dir (hd : e.type = .dir) : Puts env leader e o (genDir env e leader o) := by
  have hb : typeBits e = S_IFDIR := by rw [typeBits,hd]
  rw [genDir,← hb]
  exact puts_bare ht ha hr (.inl hd)

theorem puts_pipe (hd : e.type = .pipe) : Puts env leader e o (genPipe env e leader o) := by
  have hb : typeBits e = S_IFIFO := by rw [typeBits,hd]
  rw [genPipe,← hb]
  exact puts_bare ht ha hr (.inr (.inl hd))

theorem puts_sock (hd : e.type = .sock) : Puts env leader e o (genSock env e leader o) := by
  have hb : typeBits e = S_IFSOCK := by rw [typeBits,hd]
  rw [genSock,← hb]
  exact puts_bare ht ha hr (.inr (.inr hd))

theorem puts_node (hd : e.type = .dnode) : Puts env leader e o (genNode env e leader o) := by
  refine puts_plain ht ha hr ?_ ?_ ?_ (by decide) (fun st => ⟨major_lt,minor_lt⟩) ?_
  · rw [sourceStat,hd]
  · rw [content,hd]
  · intro st
    rw [typeBits,hd]
    by_cases hb : e.inodeType = 'b'
    · rw [if_pos hb,if_pos hb]
    · rw [if_neg hb,if_neg hb]
  · intro st _ hl hst
    unfold device
    by_cases hu : e.uid = -1
    · obtain ⟨hmj,hmn⟩ := hr.sourced hd hu st (hst hu)
      obtain ⟨hM,hm⟩ := dev_numbers hmj hmn
      rw [if_neg (not_not.mpr hu),hst hu,hM,hm,map_some]
    · obtain ⟨hmj,hmn⟩ := hr.listed hd hu
      obtain ⟨hM,hm⟩ := mkdev_numbers hmj hmn
      rw [if_pos hu,hl hu,hM,hm]

theorem puts_data (hd : e.type ≠ .dnode) (ho : owner env e = some (st.mode,st.uid,st.gid))
    (hc : content env e = some data) (hl : data.length < 2 ^ 32) :
    Puts env leader e o (nameAndData (pathOf leader e.name) ((pathOf leader e.name).length + 1) data
      (o.header env.time ((st.mode &&& 0o777) ||| typeBits e) st 1 data.length 0 0
        ((pathOf leader e.name).length + 1))) := by
  have hsh : (pathOf leader e.name).length + 1 < 4096 := hr.short
  have hf : (record env.time o ((st.mode &&& 0o777) ||| typeBits e) st 1 0 0
    (pathOf leader e.name) data).Fits :=
    record_fits ht ha (mode_lt type_bits_lt) (by decide) (by decide) (by decide) (by omega) hl
  have he := entered_name_and_data ha hf (wrote_header ht hf)
  exact ⟨_,he,rfl,⟨_,_,_,ho,rfl,rfl,rfl⟩,fun hn => absurd hn hd,hc⟩

theorem puts_slink (hd : e.type = .link) : Puts env leader e o (genSlink env e leader o) := by
  have hs : sourceStat env e = (onSource env.lstat e).toOption := by rw [sourceStat,hd]
  have hb : typeBits e = S_IFLNK := by rw [typeBits,hd]
  obtain ⟨st,hat,ho,-⟩ := attributes_owner hs hr.known
  obtain ⟨hnm,hln,-⟩ := full_name hr.short
  have hl : e.link.length + 1 < 2 ^ 32 := hr.link hd
  have hsz : (e.link ++ [nul]).length = e.link.length + 1 := length_append
  have hp := puts_data ht ha hr (by simp [hd]) ho (by rw [content,hd]) (hsz ▸ hl)
  rw [hb,hsz] at hp
  rw [genSlink,hat,u32_of_lt hl]
  simp only [hnm,hln]
  exact hp

end

theorem file_data (hrd : Readable env e) (hm : ∀ n,env.malloc n = true) (hd : e.type = .file) :
    ∃ st data,fileData env e o = .ok (st,data) ∧ owner env e = some (st.mode,st.uid,st.gid) ∧
      content env e = some data ∧ data.length < 2 ^ 32 := by
  obtain ⟨l,file,sbuf,l',data,hl,hf,hst,hl',hln,hsz,hdt,hle⟩ := hrd.file
  have hw : ¬ sbuf.size > 0xffffffff - 1 := by omega
  have hr : ¬ ((Option.map (fun data : Bytes => Int.ofNat data.length) (some data)).getD
    (-1) ≠ (sbuf.size : Int)) := by
    rw [map_some,getD_some,hle]
    exact not_not.mpr rfl
  refine ⟨if e.uid ≠ -1 then { sbuf with uid := uidT e.uid,gid := uidT e.gid,mode := e.mode }
    else sbuf,data,?_,?_,?_,?_⟩
  · simp only [fileData,hl,hf,hst,hl',hln,hm,hdt,if_neg hw,if_neg hr,bind,Except.bind,
      getD_some,Bool.false_eq_true,Bool.true_eq_false,if_false]
  · have hs : sourceStat env e = some sbuf := by
      simp only [sourceStat,hd,hf,bind_some,hst,Except.toOption]
    rw [owner,hs]
    by_cases hu : e.uid = -1
    · rw [if_neg (not_not.mpr hu),if_neg (not_not.mpr hu),map_some]
    · rw [if_pos hu,if_pos hu]
  · simp only [content,hd,hf,bind_some,hst,Except.toOption,hdt]
  · omega

theorem puts_file (ht : InTime env.time) (hm : ∀ n,env.malloc n = true) (ha : Aligned o)
    (hr : Ready env (pathOf leader e.name,e)) (hd : e.type = .file) :
    Puts env leader e o (genFile env e leader o) := by
  have hb : typeBits e = S_IFREG := by rw [typeBits,hd]
  obtain ⟨st,data,hfl,ho,hc,hdt⟩ := file_data (o := o) (hr.file hd) hm hd
  obtain ⟨hnm,-,hl⟩ := full_name hr.short
  have hp := puts_data ht ha hr (by simp [hd]) ho hc hdt
  rw [hb] at hp
  rw [genFile,hfl]
  simp only [hnm,hl]
  exact hp

/-- A part of the tree was written, entry by entry. -/
structure Covers (env : Env) (ns : List (Name × Entry)) (o o' : Out) (rs : List Record) : Prop where
  bytes : o'.bytes = o.bytes ++ rs.flatMap Record.encode
  aligned : Aligned o'
  fits : ∀ r ∈ rs,r.Fits
  describes : List.Forall₂ (Describes env) ns rs
  perrs : o'.perrs = o.perrs

theorem Covers.nil (ha : Aligned o) :
    Covers env [] o o [] := ⟨(append_nil _).symm,ha,forall_mem_nil _,.nil,rfl⟩

theorem Covers.trans (h : Covers env ns o o1 rs) (h' : Covers env ns' o1 o2 rs') :
    Covers env (ns ++ ns') o o2 (rs ++ rs') where
  bytes := by rw [h'.bytes,h.bytes,flatMap_append,append_assoc]
  aligned := h'.aligned
  fits := by exact forall_mem_append.mpr ⟨h.fits,h'.fits⟩
  describes := rel_append h.describes h'.describes
  perrs := h'.perrs.trans h.perrs

theorem Puts.covers (h : Puts env leader e o o1) :
    ∃ rs,Covers env [(pathOf leader e.name,e)] o o1 rs := by
  obtain ⟨r,hr,hd⟩ := h
  refine ⟨[r],?_,hr.aligned,?_,.cons hd .nil,hr.perrs⟩
  · rw [hr.bytes,flatMap_singleton]
  · intro r' hr'
    rw [mem_singleton.mp hr']
    exact hr.fits

theorem follow_covers (ht : InTime env.time) (hm : ∀ n,env.malloc n = true) :
    ∀ leader o,Aligned o → Shaped tree → (∀ n ∈ nodes tree leader,Ready env n) →
      ∃ rs,Covers env (nodes tree leader) o (followDir env tree leader o) rs := by
  induction tree with
  | nil => exact fun _ _ ha _ _ => ⟨[],Covers.nil ha⟩
  | cons e subdir next ihs ihn =>
    intro leader o ha ⟨hb,hs,hnx⟩ hrd
    have hr : Ready env (pathOf leader e.name,e) := hrd _ mem_cons_self
    have hrb : ∀ n ∈ nodes subdir (leader ++ '/' :: e.name),Ready env n := fun n hn =>
      hrd n (.tail _ (mem_append_left _ hn))
    have hrn : ∀ n ∈ nodes next leader,Ready env n := fun n hn =>
      hrd n (.tail _ (mem_append_right _ hn))
    have hf : ∀ {o'},e.type ≠ .dir → Puts env leader e o o' →
        ∃ rs,Covers env (nodes (.cons e subdir next) leader) o (followDir env next leader o') rs := by
      intro o' hne hp
      obtain ⟨rs,hrs⟩ := hp.covers
      obtain ⟨rs',hr'⟩ := ihn leader o' hrs.aligned hnx hrn
      refine ⟨rs ++ rs',?_⟩
      rw [nodes,hb hne,nodes,nil_append]
      exact hrs.trans hr'
    cases hty : e.type with
    | dir =>
      obtain ⟨rs,hrs⟩ := (puts_dir ht ha hr hty).covers
      obtain ⟨rs1,hr1⟩ := ihs (leader ++ '/' :: e.name) _ hrs.aligned hs hrb
      obtain ⟨rs2,hr2⟩ := ihn leader _ hr1.aligned hnx hrn
      refine ⟨rs ++ (rs1 ++ rs2),?_⟩
      simp only [followDir,hty,hm,if_true]
      exact hrs.trans (hr1.trans hr2)
    | file =>
      simp only [followDir,hty]
      exact hf (by simp [hty]) (puts_file ht hm ha hr hty)
    | link =>
      simp only [followDir,hty]
      exact hf (by simp [hty]) (puts_slink ht ha hr hty)
    | dnode =>
      simp only [followDir,hty]
      exact hf (by simp [hty]) (puts_node ht ha hr hty)
    | pipe =>
      simp only [followDir,hty]
      exact hf (by simp [hty]) (puts_pipe ht ha hr hty)
    | sock =>
      simp only [followDir,hty]
      exact hf (by simp [hty]) (puts_sock ht ha hr hty)

def trailer : Record where
  ino := 0
  mode := 0
  uid := 0
  gid := 0
  nlink := 1
  mtime := 0
  devmajor := 0
  devminor := 0
  rdevmajor := 0
  rdevminor := 0
  check := 0
  name := "TRAILER!!!".toList
  data := []

theorem trailer_fits : trailer.Fits := by
  intro f hf
  have ha : ∀ f ∈ trailer.fields,f < 12 := by decide
  exact (ha f hf).trans (by decide)

theorem trailer_bytes (ha : Aligned o) :
    (cpioTrailer o).bytes = o.bytes ++ trailer.encode ++
      List.replicate (padding 512 (o.bytes ++ trailer.encode).length) nul := by
  have hl : trailer.header.length = 110 := header_length trailer_fits
  set o1 := pushRest trailer.name ((o.put trailer.header).advance 110)
  have hw : Wrote o o1 trailer.encode := by
    have hr := (wrote_put o trailer.header (n := 110) (by rw [hl])).trans
      (wrote_push_rest _ trailer.name)
    exact hr
  have ht : cpioTrailer o = o1.pad 512 o1.offset := by rfl
  have ho : padding 512 o1.offset = padding 512 (o.bytes ++ trailer.encode).length := by
    rw [hw.offset,ha.offset,u32,u32,Nat.mod_add_mod,padding_mod block_dvd_word,length_append]
  rw [ht,(wrote_pad).bytes,hw.bytes,ho]

/-- One entry for each of the tree, directories before what is in them, then the trailer and zeros
up to a multiple of 512. -/
def Exact (env : Env) (tree : Tree) : Prop :=
  ∃ rs k,readArchive (genCpio env tree).bytes.length (genCpio env tree).bytes =
      some (rs ++ [trailer],List.replicate k nul) ∧
    List.Forall₂ (Describes env) (nodes tree []) rs ∧ (genCpio env tree).bytes.length % 512 = 0

/-- The archive describes the tree, for entries that can be put into one. -/
theorem archive_describes_tree (env : Env) (tree : Tree) (htime : InTime env.time)
    (hmem : ∀ n,env.malloc n = true)
    (hshaped : Shaped tree) (hready : ∀ n ∈ nodes tree [],Ready env n) : Exact env tree := by
  have hs : Aligned ⟨[],721,0,[]⟩ := ⟨rfl,dvd_zero 4,by decide⟩
  obtain ⟨rs,hrs⟩ := follow_covers htime hmem [] _ hs hshaped hready
  have hft : ∀ r ∈ rs ++ [trailer],r.Fits := by
    exact forall_mem_append.mpr ⟨hrs.fits,forall_mem_singleton.mpr trailer_fits⟩
  have hb := trailer_bytes hrs.aligned
  rw [hrs.bytes,nil_append] at hb
  have ha : rs.flatMap Record.encode ++ trailer.encode = (rs ++ [trailer]).flatMap Record.encode := by
    rw [flatMap_append,flatMap_singleton]
  rw [ha] at hb
  have hl := congrArg length hb
  rw [length_append,length_replicate] at hl
  have hc := encoded_length_ge (rs ++ [trailer])
  have hbl := padding_dvd (k := 512) (by decide) ((rs ++ [trailer]).flatMap Record.encode).length
  refine ⟨rs,padding 512 ((rs ++ [trailer]).flatMap Record.encode).length,?_,hrs.describes,?_⟩
  · have hf : (rs ++ [trailer]).length < (genCpio env tree).bytes.length := by
      have ho : (rs ++ [trailer]).length = rs.length + 1 := by rw [length_append,length_singleton]
      rw [genCpio,hl]
      omega
    rw [genCpio,hb] at hf ⊢
    exact read_archive hft hf
  · rw [genCpio,hl]
    exact Nat.mod_eq_zero_of_dvd hbl

def plainEnv (now : Int) (memory : Bool) : Env where
  destdir := none
  time := fun _ => now
  malloc := fun _ => memory
  stat := fun _ => .ok ⟨0o100644,7,8,0,3⟩
  lstat := fun _ => .ok ⟨0o120777,7,8,0,3⟩
  relstat := fun _ => .ok ⟨0o100644,7,8,0,3⟩
  file := fun _ => some ⟨.ok ⟨0o100644,7,8,0,3⟩,fun n => some (List.replicate n 'x')⟩
  errno := []

def sourced (type : Kind) (name : Name) : Entry :=
  ⟨type,name,some "/s".toList,"t".toList,0,-1,0,'c',0,0,false⟩

def listedNode (major : Nat) : Entry := ⟨.dnode,"n".toList,none,[],0o600,0,0,'c',major,3,true⟩

def smallTree : Tree :=
  .cons (sourced .dir "d".toList)
    (.cons (sourced .file "f".toList) .nil (.cons (sourced .link "l".toList) .nil .nil))
    (.cons (listedNode 5) .nil .nil)

theorem small_tree_ready : ∀ n ∈ nodes smallTree [],Ready (plainEnv 1700000000 true) n := by
  have hr : ∀ name,Readable (plainEnv 1700000000 true) (sourced .file name) := fun name =>
    ⟨_,_,_,_,_,rfl,rfl,rfl,rfl,by decide,by decide,rfl,rfl⟩
  intro n hn
  simp only [smallTree,nodes,nil_append,mem_cons,mem_append,not_mem_nil,or_false] at hn
  rcases hn with rfl | (rfl | rfl) | rfl
  · exact ⟨by decide,rfl,by simp [sourced],by simp [sourced],by simp [sourced],by simp [sourced]⟩
  · exact ⟨by decide,rfl,by simp [sourced],by simp [sourced],fun _ => hr _,by simp [sourced]⟩
  · exact ⟨by decide,rfl,by simp [sourced],by simp [sourced],by simp [sourced],fun _ => by decide⟩
  · exact ⟨by decide,rfl,fun _ _ => by decide,by simp [listedNode],by simp [listedNode],by simp [listedNode]⟩

theorem small_archive_describes_tree : Exact (plainEnv 1700000000 true) smallTree := by
  refine archive_describes_tree (plainEnv 1700000000 true) smallTree ?_
    (fun _ => rfl) ?_ small_tree_ready
  · intro n
    have hn : (0 : Int) ≤ 1700000000 ∧ (1700000000 : Int) < 2 ^ 32 := by decide
    exact hn
  · exact ⟨fun h => absurd rfl h,⟨fun _ => rfl,trivial,fun _ => rfl,trivial,trivial⟩,
      fun _ => rfl,trivial,trivial⟩

/-- What is read from the archive, without the trailer, describes the tree. -/
theorem Exact.read (h : Exact env tree) (view : Record → α) (seen : List α)
    (hr : (readArchive (genCpio env tree).bytes.length (genCpio env tree).bytes).map
      (fun a => a.1.dropLast.map view) =
      some seen) : ∃ rs,List.Forall₂ (Describes env) (nodes tree []) rs ∧ rs.map view = seen := by
  obtain ⟨rs,k,hrs,hd,-⟩ := h
  refine ⟨rs,hd,?_⟩
  rw [hrs,map_some,dropLast_concat] at hr
  exact some.inj hr

/-- A large device number is cut, a file whose content finds no memory is left out, and after 2106
the header is too long. -/
theorem archives_that_differ :
    ¬ Exact (plainEnv 1700000000 true) (.cons (listedNode (2 ^ 24)) .nil .nil) ∧
    ¬ Exact (plainEnv 1700000000 false) (.cons (sourced .file "f".toList) .nil .nil) ∧
    ¬ Exact (plainEnv 1700000000 true)
      (.cons (sourced .file "f".toList) (.cons (sourced .file "g".toList) .nil .nil) .nil) ∧
    ¬ Exact (plainEnv (2 ^ 32) true) (.cons (listedNode 5) .nil .nil) := by
  refine ⟨fun h => ?_,fun h => ?_,fun h => ?_,fun h => ?_⟩
  · obtain ⟨rs,hds,hs⟩ := h.read Record.rdevmajor [0] (by decide +kernel)
    cases hds with
    | cons hd ht =>
      have hm := hd.device rfl
      rw [map_cons,cons_eq_cons] at hs
      rw [hs.1] at hm
      exact absurd hm (by simp [device,listedNode])
  · obtain ⟨rs,hds,hs⟩ := h.read Record.name [] (by decide +kernel)
    rw [map_eq_nil_iff] at hs
    rw [hs] at hds
    cases hds
  · obtain ⟨rs,hds,hs⟩ := h.read Record.name ["f".toList] (by decide +kernel)
    have hl := hds.length_eq
    rw [← length_map Record.name,hs] at hl
    exact absurd hl (by decide)
  · obtain ⟨rs,k,hrs,-⟩ := h
    have hn : readArchive (genCpio (plainEnv (2 ^ 32) true)
      (.cons (listedNode 5) .nil .nil)).bytes.length
        (genCpio (plainEnv (2 ^ 32) true) (.cons (listedNode 5) .nil .nil)).bytes =
        none := by decide +kernel
    rw [hn] at hrs
    cases hrs

end Mpss.Proofs.CpioExact
