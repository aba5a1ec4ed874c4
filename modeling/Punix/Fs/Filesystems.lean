import Punix.Fs.FsUtil

/-!
The filesystems mounted at `/`, `/sys`, `/dev` and `/bin`: their `open`
functions, which set up the operations of the file, and these operations.
`open` returns its result and the file; the lookups read the mount table, the
device table and the table of embedded programs.
-/

namespace Punix

/-- `vfs_get_root_mounts`: the mounts one level below the root. -/
def vfsGetRootMounts (vfs : Vfs) (maxEntries : Nat) (entries : List Dirent) : List Dirent :=
  (List.finRange maxMounts).foldl (fun entries i =>
    let mount := vfs.mounts i
    let path := mount.path.bytes
    if entries.length ≥ maxEntries ∨ ¬ mount.active then entries
    else if path = [slash] ∨ path.headD 0 ≠ slash then entries
    else
      let name := path.tail
      if kStrchr name slash = none ∧ name ≠ [] then
        fsAddEntry maxEntries 0 dtDir name entries
      else entries) entries

def rootGetdents (k : Kernel) (file : File) (hasBuf : Bool) (count : BitVec 32) : GetdentsResult :=
  getdentsOnce file hasBuf count fun maxEntries =>
    let entries := fsAddEntry maxEntries 1 dtDir (cstr ".") []
    let entries := fsAddEntry maxEntries 1 dtDir (cstr "..") entries
    getdentsDone file (vfsGetRootMounts k.vfs maxEntries entries)

def rootOpen (file : File) : Int × File :=
  (0, { file with fileOps := { file.fileOps with getdents := some .root } })

def sysGetdents (file : File) (hasBuf : Bool) (count : BitVec 32) : GetdentsResult :=
  getdentsOnce file hasBuf count fun maxEntries =>
    let entries := fsAddEntry maxEntries 1 dtDir (cstr ".") []
    let entries := fsAddEntry maxEntries 2 dtDir (cstr "..") entries
    getdentsDone file entries

/-- Whether a path whose first four bytes are those of a mount point names the
mount point itself. -/
def isMountDir (path : List UInt8) : Bool :=
  path.getD 4 0 = 0 ∨ path.getD 4 0 = slash ∧ path.getD 5 0 = 0

def sysOpen (file : File) : Int × File :=
  let path := file.pathname.bytes
  if kStrncmp 4 path (cstr "/sys") ≠ 0 then (-1, file)
  else if isMountDir path then
    (0, { file with fileOps := { file.fileOps with getdents := some .sys } })
  else (-1, file)

def devLookup (devices : Fin maxDevices → Dev) (name : List UInt8) : Option (Fin maxDevices) :=
  (List.finRange maxDevices).find? fun i =>
    (devices i).active ∧ kStrcmp (devices i).name.bytes name = 0

def devGetdents (k : Kernel) (file : File) (hasBuf : Bool) (count : BitVec 32) : GetdentsResult :=
  getdentsOnce file hasBuf count fun maxEntries =>
    let entries := fsAddEntry maxEntries 1 dtDir (cstr ".") []
    let entries := fsAddEntry maxEntries 2 dtDir (cstr "..") entries
    getdentsDone file ((List.finRange maxDevices).foldl (fun entries i =>
      if entries.length ≥ maxEntries then entries
      else if (k.devices i).active then
        fsAddEntry maxEntries (100 + i) dtChr (k.devices i).name.bytes entries
      else entries) entries)

/-- `tty_open`: the markers stand for the controlling terminal of the current
task and for the active terminal. -/
def ttyOpen (k : Kernel) (file : File) : Int × File :=
  match file.driverData with
  | .marker m =>
      let ctty := k.sched.current.bind fun t => (k.sched.task t).ctty
      let tty := if m ≥ 1 then ctty.getD k.active else k.active
      (0, { file with driverData := .tty tty })
  | _ => (0, file)

def devOpen (k : Kernel) (file : File) : Int × File :=
  let path := file.pathname.bytes
  if kStrncmp 4 path (cstr "/dev") ≠ 0 then (-1, file)
  else
    let file := { file with fileOps := { file.fileOps with getdents := some .dev } }
    if isMountDir path then (0, file)
    else if path.getD 4 0 ≠ slash then (-1, file)
    else
      let name := path.drop 5
      if name = [] then (-1, file)
      else
        match devLookup k.devices name with
        | none => (-1, file)
        | some i =>
            let dev := k.devices i
            let file := { file with
              driverData := dev.driverData
              fileOps := { file.fileOps with
                write := dev.ops.write, read := dev.ops.read, close := dev.ops.close } }
            match dev.ops.openFn with
            | some .tty => ttyOpen k file
            | none => (0, file)

/-- `find_bin`, which the build generates with the table of programs. -/
def findBin (bins : List EmbeddedBin) (name : List UInt8) : Option Nat :=
  bins.findIdx? fun bin => kStrcmp bin.name name = 0

/-- The last component of the name of a program: `ls` for `/bin/ls`. -/
def binBaseName (name : List UInt8) : List UInt8 :=
  match kStrrchr name slash with
  | some rest => if rest.tail ≠ [] then rest.tail else name
  | none => name

def fillDirentFromBin (bin : EmbeddedBin) (ino : Nat) : Dirent where
  dIno := BitVec.ofNat 32 ino
  dType := dtReg
  dName := direntName (binBaseName bin.name)

def elfFillBinDirents (bins : List EmbeddedBin) (maxEntries : Nat) : List Dirent :=
  (bins.zipIdx.take maxEntries).map fun (bin, i) => fillDirentFromBin bin (i + 1)

def binGetdents (k : Kernel) (file : File) (hasBuf : Bool) (count : BitVec 32) : GetdentsResult :=
  getdentsOnce file hasBuf count fun maxEntries =>
    let entries := fsAddEntry maxEntries 1 dtDir (cstr ".") []
    let entries := fsAddEntry maxEntries 1 dtDir (cstr "..") entries
    getdentsDone file (if entries.length < maxEntries then
      entries ++ elfFillBinDirents k.embeddedBins (maxEntries - entries.length)
    else entries)

/-- The program a file of `/bin` was opened on. -/
def binOfFile (bins : List EmbeddedBin) (file : File) : Option EmbeddedBin :=
  match file.driverData with
  | .bin i => bins[i]?
  | _ => none

def binRead (k : Kernel) (file : File) (hasBuf : Bool) (count : BitVec 32) : ReadResult :=
  if ¬ hasBuf then { ret := -1, writes := [], file }
  else
    match binOfFile k.embeddedBins file with
    | none => { ret := -1, writes := [], file }
    | some bin =>
        let size := bin.image.length
        if file.pos.toNat ≥ size then { ret := 0, writes := [], file }
        else
          let remaining := size - file.pos.toNat
          let toRead := if count.toNat < remaining then count.toNat else remaining
          readDone file toRead (kMemcpyOut 0 (bin.image.drop file.pos.toNat) toRead)

def binOpen (k : Kernel) (file : File) : Int × File :=
  let file := { file with fileOps := { file.fileOps with
    read := some .bin, getdents := some .bin, fstat := some .bin } }
  let path := file.pathname.bytes
  if kStrcmp path (cstr "/bin") = 0 ∨ kStrcmp path (cstr "/bin/") = 0 then (0, file)
  else
    match if path = [] then none else findBin k.embeddedBins path with
    | none => (-1, file)
    | some i => (0, { file with driverData := .bin i })

end Punix
