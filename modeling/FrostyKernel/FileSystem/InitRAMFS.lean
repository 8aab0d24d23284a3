import FrostyKernel.FileSystem.Paths
import FrostyKernel.FileSystem.TempFSRuns

/-!
# Loading the initial RAM file system

`LoadInitRAMFS` walks over the headers of a ustar archive, creates a vnode for
each, sets its attributes and writes the contents of a file. An access outside
the archive, and a call that does not return, have no result.
-/

namespace FrostyKernel.FileSystem

open CString Word TempFS VFS

/-! ## The loader -/

/-- The fields of a header that the loader reads. -/
structure USTARItemHeader where
  fileName : List UInt8
  mode : List UInt8
  uid : List UInt8
  gid : List UInt8
  size : List UInt8
  mtime : List UInt8
  type : UInt8
  ID : List UInt8

def field (block : List UInt8) (start length : Nat) : List UInt8 := (block.drop start).take length

def itemHeader (block : List UInt8) : USTARItemHeader where
  fileName := field block 0 100
  mode := field block 100 8
  uid := field block 108 8
  gid := field block 116 8
  size := field block 124 12
  mtime := field block 136 12
  type := block.getD 156 0
  ID := field block 257 6

/-- The value of a `char` in an expression with words. -/
def charValue (byte : UInt8) : Nat :=
  if byte.toNat < 128 then byte.toNat else byte.toNat + (2 ^ 64 - 256)

def octalFrom (n : Nat) : List UInt8 → Nat
  | [] => n
  | byte :: rest =>
    if byte = 0 then n else octalFrom (add64 (mul64 n 8) (sub64 (charValue byte) 48)) rest

/-- `StringOctalToNum`. -/
def stringOctalToNum (str : List UInt8) : Nat := octalFrom 0 str

def stripSlash (fileName : List UInt8) : List UInt8 :=
  match strrchr slash fileName with
  | some (before, []) => before
  | _ => fileName

/-- The name of an item without a separator at its end, and the two parts of it. -/
structure ItemPath where
  fileName : List UInt8
  parent : List UInt8
  name : List UInt8

def itemPath (fileName : List UInt8) : ItemPath :=
  match strrchr slash (stripSlash fileName) with
  | none => ⟨stripSlash fileName, [slash], stripSlash fileName⟩
  | some (before, after) => ⟨stripSlash fileName, before, after⟩

/-- `GetAttr`, the new fields and `SetAttr`. -/
def setItemAttr (fs : VFS) (vnode : Nat) (header : USTARItemHeader) : Option VFS :=
  match fs.vnodes vnode with
  | none => none
  | some node =>
    let mtime := stringOctalToNum header.mtime % 2 ^ 32
    some (fs.setVNode vnode (some { node with attr := { node.attr with
      mode := stringOctalToNum header.mode % 2 ^ 16
      uid := stringOctalToNum header.uid % 2 ^ 32
      gid := stringOctalToNum header.gid % 2 ^ 32
      atime := mtime
      mtime := mtime
      ctime := mtime } }))

/-- `Write` of the contents at the start of the file. -/
def writeContents (fs : VFS) (vnode : Nat) (contents : List UInt8) :
    Option (VFS × Except Errno Unit) :=
  match fs.vnodes vnode with
  | none => none
  | some node =>
    match node.file.write contents 0 with
    | some (.ok outcome) =>
      some (fs.setVNode vnode (some { node with file := outcome.file }),
        if outcome.status = .success then .ok () else .error .ENOMEM)
    | _ => none

def finishItem (fs : VFS) (cwd : Nat) (path : ItemPath) (header : USTARItemHeader)
    (write : Nat → VFS → Option (VFS × Except Errno Unit)) : Option (VFS × Except Errno Unit) :=
  match fs.lookupPath path.fileName (some cwd) with
  | none => none
  | some (.error code) => some (fs, .error code)
  | some (.ok vnode) =>
    match setItemAttr fs vnode header with
    | none => none
    | some stamped => write vnode stamped

/-- The body of the loop; `contents` is none when it reaches beyond the archive. -/
def loadItem (fs : VFS) (cwd : Nat) (cred : Credential) (header : USTARItemHeader)
    (contents : Option (List UInt8)) : Option (VFS × Except Errno Unit) :=
  let path := itemPath (cString header.fileName)
  if header.type = 48 then
    match fs.createFile path.parent path.name (some cwd) cred with
    | none => none
    | some (failed, .error code) => some (failed, .error code)
    | some (created, .ok ()) =>
      finishItem created cwd path header fun vnode stamped =>
        match contents with
        | none => none
        | some bytes => writeContents stamped vnode bytes
  else if header.type = 53 then
    match fs.createDir path.parent path.name (some cwd) cred with
    | none => none
    | some (failed, .error code) => some (failed, .error code)
    | some (created, .ok ()) =>
      finishItem created cwd path header fun _ stamped => some (stamped, .ok ())
  else some (fs, .error .ENOSYS)

def ustar : List UInt8 := [117, 115, 116, 97, 114]

structure LoadCursor where
  fs : VFS
  offset : Nat

def loadRound (cwd : Nat) (cred : Credential) (data : List UInt8) (size : Nat)
    (cursor : LoadCursor) : LoadCursor ⊕ Option (VFS × Except Errno Unit) :=
  if data.length < cursor.offset + 512 then .inr none
  else
    let header := itemHeader (data.drop cursor.offset)
    if header.ID.take 5 ≠ ustar ∨ size ≤ cursor.offset then .inr (some (cursor.fs, .ok ()))
    else if header.fileName.getD 99 0 ≠ 0 then .inr (some (cursor.fs, .ok ()))
    else
      let itemSize := stringOctalToNum header.size
      let contents :=
        if cursor.offset + 512 + itemSize ≤ data.length then
          some (field data (cursor.offset + 512) itemSize)
        else none
      match loadItem cursor.fs cwd cred header contents with
      | none => .inr none
      | some (failed, .error code) => .inr (some (failed, .error code))
      | some (loaded, .ok ()) =>
        .inl ⟨loaded, add64 (add64 cursor.offset 512) (alignUp itemSize 512)⟩

/-- `LoadInitRAMFS(data, size)`. Every iteration but the last goes on to a later header. -/
def loadInitRAMFS (fs : VFS) (cred : Credential) (data : List UInt8) (size : Nat) :
    Option (VFS × Except Errno Unit) :=
  match fs.lookupPath [slash] none with
  | none => none
  | some (.error code) => some (fs, .error code)
  | some (.ok cwd) => (loop (loadRound cwd cred data size) (data.length + 1) ⟨fs, 0⟩).join

/-! ## Archives -/

/-- What an archive says about one file or directory. The name may end with a separator. -/
structure Entry where
  components : List (List UInt8)
  slashed : Bool
  directory : Bool
  mode : Nat
  uid : Nat
  gid : Nat
  mtime : Nat
  data : List UInt8

def Entry.name (entry : Entry) : List UInt8 :=
  joined entry.components ++ if entry.slashed then [slash] else []

def octalValue (digits : List UInt8) : Nat :=
  digits.foldl (fun value digit => value * 8 + (digit.toNat - 48)) 0

def OctalField (bytes : List UInt8) (value : Nat) : Prop :=
  ∃ digits rest, bytes = digits ++ 0 :: rest ∧
    (∀ digit ∈ digits, 48 ≤ digit.toNat ∧ digit.toNat < 56) ∧ octalValue digits = value

structure HeaderBlock (block : List UInt8) (entry : Entry) : Prop where
  length : block.length = 512
  fileName : block.take 100 = entry.name ++ List.replicate (100 - entry.name.length) 0
  mode : OctalField (field block 100 8) entry.mode
  uid : OctalField (field block 108 8) entry.uid
  gid : OctalField (field block 116 8) entry.gid
  size : OctalField (field block 124 12) entry.data.length
  mtime : OctalField (field block 136 12) entry.mtime
  type : block.getD 156 0 = if entry.directory then 53 else 48
  magic : field block 257 5 = ustar
  unprefixed : field block 345 155 = List.replicate 155 0

def padding (length : Nat) : Nat := (length + 511) / 512 * 512 - length

/-- Headers with their contents in whole blocks, and two blocks of zeroes at the end. -/
inductive Archive : List UInt8 → List Entry → Prop
  | finish : Archive (List.replicate 1024 0) []
  | item {block rest : List UInt8} {entry : Entry} {entries : List Entry}
      (header : HeaderBlock block entry) (following : Archive rest entries) :
      Archive (block ++ (entry.data ++ List.replicate (padding entry.data.length) 0) ++ rest)
        (entry :: entries)

/-- Usable names that are different, each directory before what is in it. -/
structure WellFormed (entries : List Entry) : Prop where
  nonempty : ∀ entry ∈ entries, entry.components ≠ []
  names : ∀ entry ∈ entries, ∀ name ∈ entry.components, ValidName name ∧ 0 ∉ name
  short : ∀ entry ∈ entries, entry.name.length < 100
  distinct : entries.Pairwise fun left right => left.components ≠ right.components
  ordered : ∀ before entry after, entries = before ++ entry :: after →
    entry.components.dropLast = [] ∨
      ∃ parent ∈ before, parent.directory = true ∧ parent.components = entry.components.dropLast

end FrostyKernel.FileSystem
