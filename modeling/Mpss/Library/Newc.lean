import Mathlib.Data.Nat.Digits.Lemmas

namespace Mpss.Library.Newc
open List Option

abbrev Bytes := List Char

def nul : Char := Char.ofNat 0

def hexChar (d : Nat) : Char := if d < 10 then Char.ofNat (48 + d) else Char.ofNat (55 + d)

def hexVal (c : Char) : Option Nat :=
  if 48 ≤ c.toNat ∧ c.toNat ≤ 57 then some (c.toNat - 48)
  else if 65 ≤ c.toNat ∧ c.toNat ≤ 70 then some (c.toNat - 55)
  else if 97 ≤ c.toNat ∧ c.toNat ≤ 102 then some (c.toNat - 87)
  else none

def hexField (n : Nat) : Bytes :=
  let ds := Nat.digits 16 n
  (ds ++ List.replicate (8 - ds.length) 0).reverse.map hexChar

def readHex (s : Bytes) : Option Nat := s.foldlM (fun n c => (hexVal c).map (fun d => n * 16 + d)) 0

theorem hex_val_char (hd : d < 16) : hexVal (hexChar d) = some d := by
  have ha : ∀ d : Fin 16,hexVal (hexChar d) = some d.val := by decide
  exact ha ⟨d,hd⟩

theorem read_hex_digits (hd : ∀ d ∈ ds,d < 16) :
    readHex (ds.reverse.map hexChar) = some (Nat.ofDigits 16 ds) := by
  induction ds with
  | nil => rfl
  | cons d ds ih =>
    have hr := ih (forall_mem_cons.mp hd).2
    rw [readHex] at hr ⊢
    rw [reverse_cons,map_append,foldlM_append,hr]
    simp only [map_cons,map_nil,bind_eq_bind,bind_some,foldlM_cons,
      hex_val_char (hd d mem_cons_self),map_some,foldlM_nil,Nat.ofDigits_cons]
    rw [add_comm,mul_comm]
    rfl

theorem hex_field_length (hn : n < 2 ^ 32) : (hexField n).length = 8 := by
  have hl : (Nat.digits 16 n).length ≤ 8 := (Nat.digits_length_le_iff (by decide) n).mpr hn
  simp only [hexField,length_map,length_reverse,length_append,length_replicate]
  omega

theorem read_hex_field : readHex (hexField n) = some n := by
  rw [hexField,read_hex_digits,Nat.ofDigits_append_replicate_zero,Nat.ofDigits_digits]
  intro d hd
  rcases mem_append.mp hd with hd | hd
  · exact Nat.digits_lt_base (by decide) hd
  · rw [eq_of_mem_replicate hd]
    decide

def readFields : Nat → Bytes → Option (List Nat × Bytes)
  | 0,s => some ([],s)
  | n + 1,s => do
    if s.length < 8 then none
    else
      let f ← readHex (s.take 8)
      let r ← readFields n (s.drop 8)
      return (f :: r.1,r.2)

theorem read_fields (hf : ∀ f ∈ fs,f < 2 ^ 32) :
    readFields fs.length (fs.flatMap hexField ++ rest) = some (fs,rest) := by
  induction fs with
  | nil => rfl
  | cons f fs ih =>
    have hl := hex_field_length (hf f mem_cons_self)
    have hr := ih (forall_mem_cons.mp hf).2
    have ht : (f :: fs).flatMap hexField ++ rest = hexField f ++ (fs.flatMap hexField ++ rest) := by
      rw [flatMap_cons,append_assoc]
    have htk : (hexField f ++ (fs.flatMap hexField ++ rest)).take 8 =
      hexField f := by rw [← hl,take_left]
    have hd : (hexField f ++ (fs.flatMap hexField ++ rest)).drop 8 = fs.flatMap hexField ++ rest := by
      rw [← hl,drop_left]
    rw [length_cons,readFields,ht,if_neg (by rw [length_append]; omega),htk,hd,hr,read_hex_field]
    rfl

def padding (k n : Nat) : Nat := (k - n % k) % k

theorem padding_dvd (hk : 0 < k) (n : Nat) : k ∣ n + padding k n := by
  rw [padding,Nat.dvd_iff_mod_eq_zero,Nat.add_mod,Nat.mod_mod]
  have hlt := Nat.mod_lt n hk
  rcases Nat.eq_zero_or_pos (n % k) with h0 | hp
  · rw [h0,Nat.sub_zero,Nat.mod_self]
    exact Nat.zero_mod k
  · rw [Nat.mod_eq_of_lt (Nat.sub_lt hk hp),Nat.add_sub_cancel' hlt.le,Nat.mod_self]

/-- The padding only depends on the number modulo a multiple of `k`. -/
theorem padding_mod (h : k ∣ m) :
    padding k (n % m) = padding k n := by rw [padding,Nat.mod_mod_of_dvd n h,padding]

theorem padding_add (h : k ∣ m) : padding k (m + n) = padding k n := by
  rw [padding,Nat.add_mod,Nat.mod_eq_zero_of_dvd h,zero_add,Nat.mod_mod,padding]

structure Record where
  ino : Nat
  mode : Nat
  uid : Nat
  gid : Nat
  nlink : Nat
  mtime : Nat
  devmajor : Nat
  devminor : Nat
  rdevmajor : Nat
  rdevminor : Nat
  check : Nat
  name : Bytes
  data : Bytes
deriving DecidableEq

def magic : Bytes := "070701".toList

def Record.fields (r : Record) : List Nat :=
  [r.ino,r.mode,r.uid,r.gid,r.nlink,r.mtime,r.data.length,r.devmajor,r.devminor,r.rdevmajor,
    r.rdevminor,r.name.length + 1,r.check]

def Record.header (r : Record) : Bytes := magic ++ r.fields.flatMap hexField

/-- An entry: the header of 110 bytes, the name with its end, the data, each padded to a multiple of
four. -/
def Record.encode (r : Record) : Bytes :=
  r.header ++ (r.name ++ [nul]) ++ List.replicate (padding 4 (110 + (r.name.length + 1))) nul ++
    r.data ++ List.replicate (padding 4 r.data.length) nul

/-- The entry at the front of an archive and the rest of it. -/
def readRecord (s : Bytes) : Option (Record × Bytes) :=
  if s.take 6 ≠ magic then none
  else
    match readFields 13 (s.drop 6) with
    | some ([ino,mode,uid,gid,nlink,mtime,filesize,devmajor,devminor,rdevmajor,rdevminor,namesize,check],
        rest) =>
      let body := rest.drop (namesize + padding 4 (110 + namesize))
      if namesize = 0 ∨ rest.length < namesize + padding 4 (110 + namesize) ∨
        (rest.take namesize).getLast? ≠ some nul
        ∨ body.length < filesize + padding 4 filesize then none
      else
        some (⟨ino,mode,uid,gid,nlink,mtime,devmajor,devminor,rdevmajor,rdevminor,check,
          (rest.take namesize).dropLast,body.take filesize⟩,body.drop (filesize + padding 4 filesize))
    | _ => none

def readArchive : Nat → Bytes → Option (List Record × Bytes)
  | 0,_ => none
  | n + 1,s =>
    if s.all (· = nul) then some ([],s)
    else do
      let r ← readRecord s
      let rs ← readArchive n r.2
      return (r.1 :: rs.1,rs.2)

def Record.Fits (r : Record) : Prop := ∀ f ∈ r.fields,f < 2 ^ 32

theorem read_record (hr : r.Fits) : readRecord (r.encode ++ rest) = some (r,rest) := by
  set zeros := replicate (padding 4 r.data.length) nul with hz
  set gap := replicate (padding 4 (110 + (r.name.length + 1))) nul with hg
  set body := r.data ++ (zeros ++ rest) with hbd
  set named := (r.name ++ [nul]) ++ (gap ++ body) with hnm
  have hf : readFields 13 (r.fields.flatMap hexField ++ named) = some (r.fields,named) :=
    read_fields hr
  have ht : r.encode ++ rest = magic ++ (r.fields.flatMap hexField ++ named) := by
    simp [Record.encode,Record.header,hnm,hbd,hz,hg]
  have htk : (magic ++ (r.fields.flatMap hexField ++ named)).take 6 = magic := take_left' rfl
  have hd : (magic ++ (r.fields.flatMap hexField ++ named)).drop 6 = r.fields.flatMap hexField ++
    named := drop_left' rfl
  have hn : named.take (r.name.length + 1) = r.name ++ [nul] :=
    take_left' (by rw [length_append,length_singleton])
  have hb : named.drop (r.name.length + 1 + padding 4 (110 + (r.name.length + 1))) = body := by
    rw [hnm,← append_assoc]
    exact drop_left' (by rw [length_append,length_append,length_singleton,hg,length_replicate])
  have hdt : body.drop (r.data.length + padding 4 r.data.length) = rest := by
    rw [hbd,← append_assoc]
    exact drop_left' (by rw [length_append,hz,length_replicate])
  have htd : body.take r.data.length = r.data := take_left' rfl
  rw [readRecord,ht,htk,if_neg (not_not.mpr rfl),hd,hf]
  simp only [Record.fields,hn,hb,hdt,htd]
  rw [if_neg]
  · simp
  · simp only [hnm,hbd,hz,hg,length_append,length_singleton,length_replicate]
    simp

theorem header_length {r : Record} (hr : r.Fits) : r.header.length = 110 := by
  have ha : r.fields.map (fun f => (hexField f).length) = r.fields.map (fun _ => 8) :=
    map_congr_left fun f hf => hex_field_length (hr f hf)
  rw [Record.header,length_append,length_flatMap,ha]
  rfl

theorem encoded_length_ge (rs : List Record) : 6 * rs.length ≤ (rs.flatMap Record.encode).length := by
  induction rs with
  | nil => exact Nat.zero_le _
  | cons r rs ih =>
    have hm : magic.length = 6 := rfl
    simp only [flatMap_cons,length_append,length_cons,Record.encode,Record.header,hm]
    omega

theorem encode_dvd (r : Record) (hr : r.Fits) : 4 ∣ r.encode.length := by
  have hn := padding_dvd (k := 4) (by decide) (110 + (r.name.length + 1))
  have hd := padding_dvd (k := 4) (by decide) r.data.length
  have hl : r.encode.length = (110 + (r.name.length + 1) + padding 4 (110 + (r.name.length + 1))) +
      (r.data.length + padding 4 r.data.length) := by
    simp only [Record.encode,length_append,length_replicate,length_singleton,header_length hr]
    omega
  rw [hl]
  exact dvd_add hn hd

theorem read_archive (hr : ∀ r ∈ rs,r.Fits) (hn : rs.length < n) :
    readArchive n (rs.flatMap Record.encode ++ List.replicate k nul) =
    some (rs,List.replicate k nul) := by
  induction rs generalizing n with
  | nil =>
    obtain ⟨n,rfl⟩ := Nat.exists_eq_succ_of_ne_zero (ne_of_gt hn)
    rw [readArchive,flatMap_nil,nil_append,if_pos]
    rw [List.all_eq_true]
    intro c hc
    rw [eq_of_mem_replicate hc]
    decide
  | cons r rs ih =>
    cases n with
    | zero => cases hn
    | succ n =>
      have hnt : ¬ ((r :: rs).flatMap Record.encode ++ replicate k nul).all (· = nul) = true := by
        rw [List.all_eq_true]
        intro ha
        have h0 : '0' ∈ (r :: rs).flatMap Record.encode ++ replicate k nul := by
          refine mem_append_left _ (mem_flatMap.mpr ⟨r,mem_cons_self,?_⟩)
          simp only [Record.encode,Record.header,append_assoc]
          exact mem_append_left _ (by decide)
        exact absurd (ha '0' h0) (by decide)
      have ht : (r :: rs).flatMap Record.encode ++ replicate k nul =
          r.encode ++ (rs.flatMap Record.encode ++
          replicate k nul) := by rw [flatMap_cons,append_assoc]
      rw [readArchive,if_neg hnt,ht,read_record (hr r mem_cons_self)]
      simp only [bind_eq_bind,bind_some,ih (forall_mem_cons.mp hr).2 (Nat.lt_of_succ_lt_succ hn)]
      rfl

end Mpss.Library.Newc
