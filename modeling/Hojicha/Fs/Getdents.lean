import Hojicha.Fs.Readdir

/-!
# `syscall_getdents`

The call fills a buffer with records, and pushes the entry that does not fit back by a seek. The
file is resolved and the buffer is in user memory. Buffers are lists of `char`.
-/

namespace Hojicha.Fs

open Framework List

abbrev NUL : Char := Char.ofNat 0

/-- The loop over `next_sibling` in `initrd_seek` and `dir_seek`. -/
def followChain (s : Vfs) : Nat → Option Addr → Option Addr
  | 0, current => current
  | _ + 1, none => none
  | i + 1, some c => followChain s i (nextSibling s c)

def dirSeek (s : Vfs) (offset : Int) (whence : Whence) (file : OpenDir) : OpenDir :=
  let len := (s.node file.vnode).len
  let origin : Int := match whence with
    | .set => 0
    | .cur => file.offset
    | _ => len
  let pos := if offset + origin < 0 then 0
    else if offset + origin > len then len
    else (offset + origin).toNat
  { file with
    current := followChain s pos (s.node file.vnode).children.head?
    offset := pos }

/-- `linux_dirent_t`, whose name begins at the byte 18. -/
structure Record where
  ino : Nat
  off : Nat
  reclen : Nat
  name : Name

/-- `linux_dirent_record_len`: the name with its end, rounded up to 8 bytes. -/
def linuxDirentRecordLen (nameLen : Nat) : Nat :=
  let len := (18 + nameLen + 1 + 7) / 8 * 8
  if len > 65535 then 0 else len

def leBytes (k n : Nat) : List Char := (List.range k).map fun i => Char.ofNat (n / 256 ^ i % 256)

def Record.bytes (r : Record) : List Char :=
  leBytes 8 r.ino ++ leBytes 8 r.off ++ leBytes 2 r.reclen ++ r.name ++
    List.replicate (r.reclen - 18 - r.name.length) NUL

def entryName (name : Name) : Name :=
  let name := name.takeWhile (· ≠ NUL)
  if name.getLast? = some '/' then name.dropLast else name

/-- The returned value, where `invalidArg` is `-EINVAL`, and what was written to the buffer. -/
abbrev GetdentsReply := Except Status Nat × List Char

def getdentsFailure (written : Nat) (status : Status) : Except Status Nat :=
  if written > 0 then .ok written else .error status

def getdentsLoop (s : Vfs) (count : Nat) (file : OpenDir) (written : Nat) (buffer : List Char) :
    GetdentsReply × OpenDir :=
  if written < count then
    match vfsReaddir true s file with
    | (.ok, none, file) => ((.ok written, buffer), file)
    | (.ok, some dirent, file) =>
      let name := entryName dirent.name
      let recordLen := linuxDirentRecordLen name.length
      if recordLen = 0 ∨ written + recordLen > count then
        ((getdentsFailure written .invalidArg, buffer), dirSeek s (-1) .cur file)
      else
        getdentsLoop s count file (written + recordLen)
          (buffer ++ (Record.mk dirent.entry file.offset recordLen name).bytes)
    | (status, _, file) => ((getdentsFailure written status, buffer), file)
  else ((.ok written, buffer), file)
termination_by count - written
decreasing_by
  rename_i hcount hfits
  have hpos : linuxDirentRecordLen (entryName dirent.name).length ≠ 0 := fun hzero =>
    hfits (Or.inl hzero)
  omega

def syscallGetdents (s : Vfs) (file : OpenDir) (count : Nat) : GetdentsReply × OpenDir :=
  getdentsLoop s count file 0 []

def recordLength (buffer : List Char) : Nat :=
  ((buffer.drop 16).headD NUL).toNat + 256 * ((buffer.drop 17).headD NUL).toNat

def parseRecords : Nat → List Char → List Name
  | 0, _ => []
  | fuel + 1, buffer =>
    if buffer = [] then []
    else (buffer.drop 18).takeWhile (· ≠ NUL) :: parseRecords fuel (buffer.drop (recordLength buffer))

def parse (buffer : List Char) : List Name := parseRecords buffer.length buffer

private theorem toNat_ofNat {n : Nat} (h : n<256) : (Char.ofNat n).toNat=n := by
  have hvalid : n.isValidChar := Or.inl (by omega)
  rw [Char.ofNat,dif_pos hvalid]
  rfl

private theorem length_leBytes (k n : Nat) : (leBytes k n).length=k := by
  rw [leBytes,length_map,length_range]

structure Record.Fits (r : Record) : Prop where
  name : 18 + r.name.length + 1 ≤ r.reclen
  len : r.reclen ≤ 65535
  ends : NUL ∉ r.name

variable {record : Record} {rest : List Char} {i : Nat}

private theorem length_bytes (h : record.Fits) : record.bytes.length=record.reclen := by
  have hname := h.name
  simp only [Record.bytes,length_append,length_leBytes,length_replicate]
  omega

private theorem drop_header (record : Record) (rest : List Char) :
    (record.bytes++rest).drop 16=leBytes 2 record.reclen++(record.name ++
      (List.replicate (record.reclen - 18 - record.name.length) NUL++rest)) := by
  rw [Record.bytes]
  simp only [append_assoc]
  rw [← append_assoc (leBytes 8 record.ino)]
  apply drop_left'
  simp [length_leBytes]

private theorem recordLength_bytes (h : record.Fits) :
    recordLength (record.bytes++rest)=record.reclen := by
  have hlen := h.len
  have htwo : leBytes 2 record.reclen =
      [Char.ofNat (record.reclen % 256),Char.ofNat (record.reclen / 256 % 256)] := by
    simp [leBytes,range_succ]
  have hdrop : (record.bytes++rest).drop 17=((record.bytes++rest).drop 16).drop 1 := by
    rw [drop_drop]
  rw [recordLength,hdrop,drop_header,htwo]
  change (Char.ofNat (record.reclen % 256)).toNat +
    256 * (Char.ofNat (record.reclen / 256 % 256)).toNat=record.reclen
  rw [toNat_ofNat (Nat.mod_lt _ (by decide)),toNat_ofNat (Nat.mod_lt _ (by decide))]
  omega

private theorem name_bytes (h : record.Fits) :
    ((record.bytes++rest).drop 18).takeWhile (· ≠ NUL)=record.name := by
  have hname := h.name
  have hdrop : (record.bytes++rest).drop 18=((record.bytes++rest).drop 16).drop 2 := by
    rw [drop_drop]
  rw [hdrop,drop_header,drop_left' (length_leBytes 2 _)]
  obtain ⟨k,hk⟩ : ∃ k, record.reclen-18-record.name.length=k+1 :=
    ⟨record.reclen-18-record.name.length-1,by omega⟩
  rw [hk,replicate_succ,cons_append,takeWhile_append_of_pos]
  · simp
  · intro c hc
    simp only [ne_eq,decide_not,Bool.not_eq_eq_eq_not,Bool.not_true,decide_eq_false_iff_not]
    intro heq
    exact h.ends (heq ▸ hc)

private theorem parseRecords_bytes {records : List Record} (h : ∀ record∈records, record.Fits)
    {fuel : Nat} (hfuel : (records.flatMap Record.bytes).length≤fuel) :
    parseRecords fuel (records.flatMap Record.bytes)=records.map (·.name) := by
  induction records generalizing fuel with
  | nil =>
    cases fuel with
    | zero => rfl
    | succ fuel => rfl
  | cons record records ih =>
    have hfits := h record (mem_cons_self ..)
    have hname := hfits.name
    rw [flatMap_cons,length_append,length_bytes hfits] at hfuel
    obtain ⟨fuel,rfl⟩ : ∃ k, fuel=k+1 := ⟨fuel-1,by omega⟩
    have hne : record.bytes++records.flatMap Record.bytes≠[] := by
      intro hnil
      have hlength := congrArg List.length hnil
      rw [length_append,length_bytes hfits,length_nil] at hlength
      omega
    rw [flatMap_cons,parseRecords,if_neg hne,name_bytes hfits,recordLength_bytes hfits,
      drop_left' (length_bytes hfits),map_cons]
    rw [ih (fun r hr => h r (mem_cons_of_mem _ hr)) (by omega)]

private theorem parse_bytes {records : List Record} (h : ∀ record∈records, record.Fits) :
    parse (records.flatMap Record.bytes)=records.map (·.name) :=
  parseRecords_bytes h le_rfl

variable {roots : Set Addr} {s : Vfs} {d : Addr}

/-- A directory with names that are strings without a slash, shorter than 65000 bytes. -/
structure Listing (s : Vfs) (d : Addr) : Prop where
  dir : (s.node d).type = .dir
  len : (s.node d).len = (s.node d).children.length
  nodup : (s.node d).children.Nodup
  parent : ∀ c ∈ (s.node d).children, (s.node c).parent = some d
  names : ∀ c ∈ (s.node d).children, ∃ name, (s.node c).name = some name ∧ '/' ∉ name ∧
    NUL ∉ name ∧ name.length < 65000

def dirNames (s : Vfs) (d : Addr) : List Name :=
  (s.node d).children.map fun c => (s.node c).name.getD []

private theorem length_dirNames (s : Vfs) (d : Addr) :
    (dirNames s d).length=(s.node d).children.length := length_map ..

def dirAt (s : Vfs) (d : Addr) (i : Nat) : OpenDir := ⟨d, ((s.node d).children.drop i).head?, i⟩

private theorem openDir_eq (s : Vfs) (d : Addr) : openDir s d=dirAt s d 0 := rfl

section

variable (h : Listing s d)
include h

private theorem Listing.nextSibling {c : Addr} {rest : List Addr}
    (hdrop : (s.node d).children.drop i=c::rest) :
    nextSibling s c=((s.node d).children.drop (i + 1)).head? := by
  have hc : c∈(s.node d).children := mem_of_mem_drop (hdrop ▸ mem_cons_self ..)
  rw [Fs.nextSibling,h.parent c hc]
  exact nextOf_drop h.nodup hdrop

private theorem Listing.readdir_end (hdrop : (s.node d).children.drop i=[]) :
    vfsReaddir true s (dirAt s d i)=(.ok, none, dirAt s d i) := by
  simp only [vfsReaddir,dirAt,h.dir,hdrop,head?_nil,ne_eq,not_true,if_false]

private theorem Listing.readdir_entry {c : Addr} {rest : List Addr}
    (hdrop : (s.node d).children.drop i=c::rest) :
    vfsReaddir true s (dirAt s d i) =
      (.ok, some ⟨c, direntName (s.node c)⟩, dirAt s d (i + 1)) := by
  simp only [vfsReaddir,dirAt,h.dir,hdrop,head?_cons,ne_eq,not_true,if_false,if_true,
    h.nextSibling hdrop]

private theorem Listing.followChain (i j : Nat) :
    followChain s i ((s.node d).children.drop j).head? =
      ((s.node d).children.drop (j + i)).head? := by
  induction i generalizing j with
  | zero => rfl
  | succ i ih =>
    cases hdrop : (s.node d).children.drop j with
    | nil =>
      have hnil : (s.node d).children.drop (j+(i+1))=[] := by
        rw [← drop_drop,hdrop,drop_nil]
      rw [hnil]
      rfl
    | cons c rest =>
      rw [head?_cons,Fs.followChain,h.nextSibling hdrop,ih]
      congr 2
      omega

private theorem Listing.dirSeek_back (hi : i<(s.node d).children.length) :
    dirSeek s (-1) .cur (dirAt s d (i + 1))=dirAt s d i := by
  have hpos : ¬((-1 : Int)+((i+1 : Nat) : Int)<0) := by omega
  have hlen : ¬((-1 : Int)+((i+1 : Nat) : Int) > ((s.node d).len : Int)) := by
    rw [h.len]
    omega
  have hnat : ((-1 : Int)+((i+1 : Nat) : Int)).toNat=i := by omega
  simp only [dirSeek,dirAt,if_neg hpos,if_neg hlen,hnat]
  have hchain := h.followChain i 0
  rw [drop_zero,Nat.zero_add] at hchain
  rw [hchain]

end

private theorem entryName_direntName {node : Node} {name : Name} (hname : node.name=some name)
    (hslash : '/'∉name) (hnul : NUL∉name) : entryName (direntName node)=name := by
  have hall : ∀ c∈name, (decide (c≠NUL))=true := by
    intro c hc
    rw [decide_eq_true_iff]
    intro heq
    exact hnul (heq ▸ hc)
  by_cases hdir : node.type = .dir
  · have htake : (name++['/']).takeWhile (· ≠ NUL)=name++['/'] := by
      rw [takeWhile_append_of_pos hall]
      rfl
    rw [direntName,hname,Option.getD_some,if_pos hdir,entryName,htake]
    simp
  · have htake : name.takeWhile (· ≠ NUL)=name := takeWhile_eq_self_iff.mpr hall
    have hlast : name.getLast? ≠ some '/' := by
      intro heq
      exact hslash (mem_of_getLast? heq)
    rw [direntName,hname,Option.getD_some,if_neg hdir,append_nil,entryName,htake,if_neg hlast]

private theorem recordLen_spec {n : Nat} (h : n<65000) :
    18 + n + 1≤linuxDirentRecordLen n ∧ linuxDirentRecordLen n≤65535 := by
  rw [linuxDirentRecordLen]
  split_ifs with hbig
  · omega
  · omega

/-- The records that a loop writes from a position on, and why it stops. -/
structure Written (s : Vfs) (d : Addr) (count i written : Nat) (buffer : List Char)
    (records : List Record) (r : GetdentsReply × OpenDir) : Prop where
  names : records.map (·.name) = ((dirNames s d).drop i).take records.length
  inside : i + records.length ≤ (dirNames s d).length
  fits : ∀ record ∈ records, record.Fits
  lens : ∀ record ∈ records, record.reclen = linuxDirentRecordLen record.name.length
  room : written + (records.flatMap Record.bytes).length ≤ count
  buffer : r.1.2 = buffer ++ records.flatMap Record.bytes
  file : r.2 = dirAt s d (i + records.length)
  result :
    r.1.1 = .ok (written + (records.flatMap Record.bytes).length) ∧
      (written + (records.flatMap Record.bytes).length = count ∨
        i + records.length = (dirNames s d).length) ∨
    r.1.1 = getdentsFailure (written + (records.flatMap Record.bytes).length) .invalidArg ∧
      ∃ name, (dirNames s d)[i + records.length]? = some name ∧
        count < written + (records.flatMap Record.bytes).length + linuxDirentRecordLen name.length

section

variable {count written : Nat} {buffer : List Char} {records : List Record}
  {r : GetdentsReply × OpenDir}

private theorem Written.nil (hi : i≤(dirNames s d).length) (hw : written≤count)
    (hbuffer : r.1.2=buffer) (hfile : r.2=dirAt s d i)
    (hresult : r.1.1 = .ok written ∧ (written=count ∨ i=(dirNames s d).length) ∨
      r.1.1=getdentsFailure written .invalidArg ∧ ∃ name, (dirNames s d)[i]? = some name ∧
        count<written + linuxDirentRecordLen name.length) :
    Written s d count i written buffer [] r :=
  ⟨rfl,hi,by simp,by simp,hw,by rw [hbuffer,flatMap_nil,append_nil],hfile,hresult⟩

private theorem Written.cons (hfits : record.Fits)
    (hlen : record.reclen=linuxDirentRecordLen record.name.length)
    (hname : (dirNames s d).drop i=record.name::(dirNames s d).drop (i + 1))
    (h : Written s d count (i + 1) (written + record.reclen) (buffer++record.bytes) records r) :
    Written s d count i written buffer (record::records) r := by
  have hbytes : written+((record::records).flatMap Record.bytes).length =
      written+record.reclen+(records.flatMap Record.bytes).length := by
    rw [flatMap_cons,length_append,length_bytes hfits,Nat.add_assoc]
  have hposition : i+(record::records).length=i+1+records.length := by
    rw [length_cons]
    omega
  constructor
  · rw [map_cons,length_cons,hname,take_succ_cons,h.names]
  · rw [hposition]
    exact h.inside
  · exact forall_mem_cons.mpr ⟨hfits,h.fits⟩
  · exact forall_mem_cons.mpr ⟨hlen,h.lens⟩
  · rw [hbytes]
    exact h.room
  · rw [h.buffer,flatMap_cons,append_assoc]
  · rw [hposition]
    exact h.file
  · rw [hbytes,hposition]
    exact h.result

/-- With room in the buffer, the loop takes the next record or seeks back and ends. -/
private theorem Listing.loop_entry (h : Listing s d) {c : Addr} {rest : List Addr} {name : Name}
    (hdrop : (s.node d).children.drop i=c::rest) (hname : (s.node c).name=some name)
    (hslash : '/'∉name) (hnul : NUL∉name) (hcount : written<count)
    (hpos : 0<linuxDirentRecordLen name.length) :
    getdentsLoop s count (dirAt s d i) written buffer =
      if written + linuxDirentRecordLen name.length≤count then
        getdentsLoop s count (dirAt s d (i + 1)) (written + linuxDirentRecordLen name.length)
          (buffer++(Record.mk c (i + 1) (linuxDirentRecordLen name.length) name).bytes)
      else ((getdentsFailure written .invalidArg, buffer), dirAt s d i) := by
  conv_lhs => rw [getdentsLoop]
  rw [if_pos hcount,h.readdir_entry hdrop]
  simp only [entryName_direntName hname hslash hnul]
  split_ifs with hbad hroom hroom
  · omega
  · have hi : i<(s.node d).children.length := by
      rw [← Nat.not_le,← drop_eq_nil_iff,hdrop]
      exact cons_ne_nil c rest
    rw [h.dirSeek_back hi]
  · rfl
  · omega

end

private theorem Listing.loop_spec (h : Listing s d) (count : Nat) {written : Nat}
    {buffer : List Char} (hi : i≤(dirNames s d).length) (hw : written≤count) :
    ∃ records, Written s d count i written buffer records
      (getdentsLoop s count (dirAt s d i) written buffer) := by
  induction hdrop : (s.node d).children.drop i generalizing i written buffer with
  | nil =>
    have hend : i=(dirNames s d).length := by
      rw [length_dirNames] at hi ⊢
      have hlen := drop_eq_nil_iff.mp hdrop
      omega
    refine ⟨[],Written.nil hi hw ?_ ?_ (Or.inl ⟨?_,Or.inr hend⟩)⟩
    all_goals
      rw [getdentsLoop,h.readdir_end hdrop]
      split_ifs <;> rfl
  | cons c rest ih =>
    have hc : c∈(s.node d).children := mem_of_mem_drop (hdrop ▸ mem_cons_self ..)
    have hnext : (s.node d).children.drop (i+1)=rest := by
      rw [← tail_drop,hdrop]
      rfl
    obtain ⟨name,hname,hslash,hnul,hshort⟩ := h.names c hc
    have hlen := recordLen_spec hshort
    have hnames : (dirNames s d).drop i=name::(dirNames s d).drop (i+1) := by
      rw [dirNames,← map_drop,← map_drop,hdrop,hnext,map_cons,hname]
      rfl
    by_cases hcount : written<count
    · rw [h.loop_entry hdrop hname hslash hnul hcount (by omega)]
      split_ifs with hroom
      · have hi' : i+1≤(dirNames s d).length := by
          rw [← Nat.not_lt,Nat.lt_succ_iff,← drop_eq_nil_iff,hnames]
          exact cons_ne_nil _ _
        let record := Record.mk c (i+1) (linuxDirentRecordLen name.length) name
        have hfits : record.Fits := ⟨hlen.1,hlen.2,hnul⟩
        have hlater : ∃ records, Written s d count (i+1) (written+record.reclen)
            (buffer++record.bytes) records (getdentsLoop s count (dirAt s d (i+1))
              (written+record.reclen) (buffer++record.bytes)) := ih hi' hroom hnext
        obtain ⟨records,hrec⟩ := hlater
        exact ⟨record::records,Written.cons hfits rfl hnames hrec⟩
      · -- the record does not fit
        have hget : (dirNames s d)[i]? = some name := by
          rw [← head?_drop,hnames]
          rfl
        exact ⟨[],Written.nil hi hw rfl rfl (Or.inr ⟨rfl,name,hget,Nat.lt_of_not_le hroom⟩)⟩
    · -- the buffer is full
      rw [getdentsLoop,if_neg hcount]
      exact ⟨[],Written.nil hi hw rfl rfl (Or.inl ⟨rfl,Or.inl (by omega)⟩)⟩

private theorem Listing.call_spec (h : Listing s d) {count : Nat} (hcount : 0<count)
    (hi : i≤(dirNames s d).length) :
    ∃ records, Written s d count i 0 [] records (syscallGetdents s (dirAt s d i) count) ∧
      (records≠[] ∧ (syscallGetdents s (dirAt s d i) count).1.1 =
          .ok (records.flatMap Record.bytes).length ∧ 0<(records.flatMap Record.bytes).length ∨
        records=[] ∧ i=(dirNames s d).length ∧
          (syscallGetdents s (dirAt s d i) count).1.1 = .ok 0 ∨
        records=[] ∧ (∃ name, (dirNames s d)[i]? = some name ∧
          count<linuxDirentRecordLen name.length) ∧
          (syscallGetdents s (dirAt s d i) count).1.1 = .error .invalidArg) := by
  have hloop : ∃ records, Written s d count i 0 [] records
      (getdentsLoop s count (dirAt s d i) 0 []) := h.loop_spec count hi (Nat.zero_le count)
  obtain ⟨records,hrec⟩ := hloop
  refine ⟨records,hrec,?_⟩
  have hresult := hrec.result
  rw [Nat.zero_add] at hresult
  change _ ∨ _ ∧ _ ∧ (getdentsLoop s count (dirAt s d i) 0 []).1.1=_ ∨
    _ ∧ _ ∧ (getdentsLoop s count (dirAt s d i) 0 []).1.1=_
  cases records with
  | nil =>
    apply Or.inr
    rcases hresult with ⟨hok,hend⟩ | ⟨hfail,name,hname,hover⟩
    · refine Or.inl ⟨rfl,?_,hok⟩
      rcases hend with hfull | hend
      · change 0=count at hfull
        omega
      · exact hend
    · refine Or.inr ⟨rfl,⟨name,hname,?_⟩,hfail⟩
      change count<0+linuxDirentRecordLen name.length at hover
      omega
  | cons record records =>
    have hfits := hrec.fits record (mem_cons_self ..)
    have hpos : 0<((record::records).flatMap Record.bytes).length := by
      have hname := hfits.name
      rw [flatMap_cons,length_append,length_bytes hfits]
      omega
    refine Or.inl ⟨cons_ne_nil _ _,?_,hpos⟩
    rcases hresult with ⟨hok,_⟩ | ⟨hfail,_⟩
    · exact hok
    · rw [getdentsFailure,if_pos hpos] at hfail
      exact hfail

private theorem Listing.run (h : Listing s d) {counts : List Nat} (hpos : ∀ count∈counts, 0<count)
    (hi : i≤(dirNames s d).length) :
    ∃ j, i≤j ∧ j≤(dirNames s d).length ∧
      (trace (syscallGetdents s) (dirAt s d i) counts).2=dirAt s d j ∧
      ((trace (syscallGetdents s) (dirAt s d i) counts).1.flatMap fun reply => parse reply.2) =
        ((dirNames s d).drop i).take (j - i) := by
  induction counts generalizing i with
  | nil =>
    refine ⟨i,le_rfl,hi,rfl,?_⟩
    rw [Nat.sub_self,take_zero]
    rfl
  | cons count counts ih =>
    obtain ⟨records,hrec,_⟩ := h.call_spec (hpos count (mem_cons_self ..)) hi
    have hparse : parse (syscallGetdents s (dirAt s d i) count).1.2=records.map (·.name) := by
      rw [hrec.buffer,nil_append]
      exact parse_bytes hrec.fits
    obtain ⟨j,hij,hj,hfile,hnames⟩ :=
      ih (fun n hn => hpos n (mem_cons_of_mem _ hn)) hrec.inside
    refine ⟨j,by omega,hj,?_,?_⟩
    · rw [trace_cons,hrec.file]
      exact hfile
    · rw [trace_cons,hrec.file,flatMap_cons,hnames,hparse,hrec.names]
      have hsplit : j-i=records.length+(j-(i+records.length)) := by omega
      rw [hsplit,take_add,drop_drop]

/-- What a call with a buffer of `count` bytes does. -/
structure ListsNext (s : Vfs) (d : Addr) (file : OpenDir) (count : Nat) : Prop where
  bounded : (syscallGetdents s file count).1.2.length ≤ count
  value : ∀ m, (syscallGetdents s file count).1.1 = .ok m →
    m = (syscallGetdents s file count).1.2.length
  /-- With room for the next record, the buffer has the next names, and the position is behind
  them. -/
  advances : ∀ name, (dirNames s d)[file.offset]? = some name →
    linuxDirentRecordLen name.length ≤ count →
    ∃ m k, (syscallGetdents s file count).1.1 = .ok m ∧ 0 < m ∧ 0 < k ∧
      (syscallGetdents s file count).2.offset = file.offset + k ∧
      parse (syscallGetdents s file count).1.2 = ((dirNames s d).drop file.offset).take k
  /-- Without, it fails and changes nothing. -/
  fails : ∀ name, (dirNames s d)[file.offset]? = some name →
    count < linuxDirentRecordLen name.length →
    syscallGetdents s file count = ((.error .invalidArg, []), file)
  ends : (syscallGetdents s file count).1.1 = .ok 0 ↔ file.offset = (dirNames s d).length

private theorem Listing.listsNext (h : Listing s d) {count : Nat} (hcount : 0<count)
    (hi : i≤(dirNames s d).length) : ListsNext s d (dirAt s d i) count := by
  obtain ⟨records,hrec,hcases⟩ := h.call_spec hcount hi
  have hbuffer : (syscallGetdents s (dirAt s d i) count).1.2=records.flatMap Record.bytes :=
    hrec.buffer
  have hroom := hrec.room
  rw [Nat.zero_add] at hroom
  have hlt : ∀ {name}, (dirNames s d)[i]? = some name → i<(dirNames s d).length :=
    fun hname => (List.getElem?_eq_some_iff.mp hname).1
  constructor
  · rw [hbuffer]
    exact hroom
  · intro m hm
    rw [hbuffer]
    rcases hcases with ⟨_,hok,_⟩ | ⟨hnil,_,hok⟩ | ⟨_,_,hfail⟩
    · rw [hok] at hm
      exact (Except.ok.inj hm).symm
    · rw [hok] at hm
      rw [hnil]
      exact (Except.ok.inj hm).symm
    · rw [hfail] at hm
      cases hm
  · intro name hname hfits
    rcases hcases with ⟨hne,hok,hpos⟩ | ⟨_,hend,_⟩ | ⟨_,⟨name',hname',hover⟩,_⟩
    · refine ⟨_,records.length,hok,hpos,length_pos_iff.mpr hne,?_,?_⟩
      · rw [hrec.file]
        rfl
      · rw [hbuffer,parse_bytes hrec.fits,hrec.names]
        rfl
    · exact absurd (hlt hname) (by omega)
    · rw [show (dirNames s d)[i]? = some name from hname] at hname'
      cases hname'
      omega
  · intro name hname hover
    rcases hcases with ⟨hne,_⟩ | ⟨_,hend,_⟩ | ⟨hnil,_,hfail⟩
    · obtain ⟨record,records,rfl⟩ := exists_cons_of_ne_nil hne
      have hhead : record.name=name := by
        have hmap := congrArg List.head? hrec.names
        rw [map_cons,head?_cons,length_cons,head?_take,head?_drop] at hmap
        simpa [show (dirNames s d)[i]? = some name from hname] using hmap
      rw [flatMap_cons,length_append,length_bytes (hrec.fits record mem_cons_self),
        hrec.lens record mem_cons_self,hhead] at hroom
      omega
    · exact absurd (hlt hname) (by omega)
    · refine Prod.ext (Prod.ext hfail ?_) ?_
      · rw [hbuffer,hnil]
        rfl
      · rw [hrec.file,hnil]
        rfl
  · constructor
    · intro hzero
      rcases hcases with ⟨_,hok,hpos⟩ | ⟨_,hend,_⟩ | ⟨_,_,hfail⟩
      · rw [hok] at hzero
        have hlength := Except.ok.inj hzero
        omega
      · exact hend
      · rw [hfail] at hzero
        cases hzero
    · intro hend
      rcases hcases with ⟨hne,_⟩ | ⟨_,_,hok⟩ | ⟨_,⟨name,hname,_⟩,_⟩
      · have hinside := hrec.inside
        have hpos := length_pos_iff.mpr hne
        have hend' : i=(dirNames s d).length := hend
        omega
      · exact hok
      · exact absurd (hlt hname) (by rw [show i=_ from hend]; omega)

/-- In a directory that does not change, any calls with buffers that are not empty list the names
in order and once each: what has been read is always the names in front of the position. A call
with room for the next record reads on. It writes no more than its buffer and returns the number of
bytes, 0 exactly behind the last name, and it fails without a change if the next record does not
fit. -/
theorem getdents_lists_names_once (s : Vfs) (hshape : Shape roots s) (d : Addr)
    (hd : s.live d = true) (hdir : (s.node d).type = .dir)
    (hnames : ∀ c ∈ (s.node d).children, ∃ name, (s.node c).name = some name ∧ '/' ∉ name ∧
      NUL ∉ name ∧ name.length < 65000)
    (before : List Nat) (hbefore : ∀ n ∈ before, 0 < n) (count : Nat) (hcount : 0 < count) :
    ((trace (syscallGetdents s) (openDir s d) before).1.flatMap fun reply => parse reply.2) =
        (dirNames s d).take (trace (syscallGetdents s) (openDir s d) before).2.offset ∧
      ListsNext s d (trace (syscallGetdents s) (openDir s d) before).2 count := by
  have hlisting : Listing s d :=
    ⟨hdir,hshape.len d hd hdir,hshape.nodup d hd,fun c hc => (hshape.child d c hd hc).2,hnames⟩
  obtain ⟨j,_,hj,hfile,hread⟩ := hlisting.run hbefore (Nat.zero_le _)
  rw [← openDir_eq] at hfile hread
  rw [Nat.sub_zero,drop_zero] at hread
  rw [hread,hfile]
  exact ⟨rfl,hlisting.listsNext hcount hj⟩

/-- A call with room for one record, one with too little, one with room for the others, and one at
the end. -/
theorem getdents_lists_root :
    ((trace (syscallGetdents smallTree) (openDir smallTree 0) [24, 10, 50]).1.map fun reply =>
        (reply.1, parse reply.2)) =
      [(.ok 24, [['d']]), (.error .invalidArg, []), (.ok 48, [['l'], ['f']])] ∧
    ListsNext smallTree 0
      (trace (syscallGetdents smallTree) (openDir smallTree 0) [24, 10, 50]).2 24 := by
  refine ⟨by decide +kernel,(getdents_lists_names_once smallTree shape_smallTree 0 rfl rfl ?_
    [24,10,50] (by decide) 24 (by decide)).2⟩
  intro c hc
  have hmem : c∈[1,2,4] := hc
  simp only [mem_cons,not_mem_nil,or_false] at hmem
  rcases hmem with rfl | rfl | rfl
  · exact ⟨['d'],rfl,by decide,by decide,by decide⟩
  · exact ⟨['l'],rfl,by decide,by decide,by decide⟩
  · exact ⟨['f'],rfl,by decide,by decide,by decide⟩

/-- A call with an empty buffer returns 0 in front of the first entry. -/
theorem getdents_ends_early :
    (syscallGetdents smallTree (openDir smallTree 0) 0).1.1 = .ok 0 ∧
      dirNames smallTree 0 = [['d'], ['l'], ['f']] := by
  constructor
  · rw [syscallGetdents,getdentsLoop]
    rfl
  · rfl

end Hojicha.Fs
