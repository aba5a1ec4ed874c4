import Punix.Fs.Vfs

/-!
The initialization that `kmain` runs before the first task exists: the device
table with the terminals, the mounts, and the empty scheduler.
-/

namespace Punix

/-- `dev_init`. -/
def devInit : Fin maxDevices → Dev := fun _ =>
  { name := CharArray.ofBytes 32 [], ops := ⟨none, none, none, none⟩, driverData := .null,
    active := false }

/-- `dev_register`. `device_count` is the number of active entries. -/
def devRegister (devices : Fin maxDevices → Dev) (name : List UInt8) (ops : DevOps)
    (driverData : DriverData) : (Fin maxDevices → Dev) × Int :=
  if name.headD 0 = slash then (devices, -1)
  else
    match (List.finRange maxDevices).find? fun i => ¬ (devices i).active with
    | some i =>
        let dev : Dev := { name := CharArray.ofBytes 32 name, ops, driverData, active := true }
        (Function.update devices i dev, 0)
    | none => (devices, -1)

def ttyDevOps : DevOps where
  openFn := some .tty
  close := some .tty
  read := some .tty
  write := some .tty

def ttyInit : Tty where
  inBuf _ := 0
  inHead := 0
  inTail := 0

/-- The devices that `tty_system_init` registers, in order. -/
def ttyDevices : List (List UInt8 × DriverData) :=
  (List.finRange ttyCount).map (fun i => (cstr "tty" ++ kItoa (BitVec.ofNat 32 i.val), .tty i)) ++
    [(cstr "tty", .marker 0), (cstr "stdin", .marker 1), (cstr "stdout", .marker 2),
      (cstr "stderr", .marker 3)]

/-- The mounts of `kmain`, in order. -/
def bootMounts : List (List UInt8 × Fs) :=
  [(cstr "/", .root), (cstr "/sys", .sys), (cstr "/proc", .proc), (cstr "/dev", .dev),
    (cstr "/bin", .bin)]

def schedulerInit : Scheduler where
  current := none
  ctxt := 0
  taskTable := taskTableInit
  runQueue := { first := none, last := none, len := 0 }
  swapper := none

/-- The kernel when `sched_init` has initialized the task table. The memory of
the wait queues has been zeroed with the rest of the static storage. -/
def kernelInit (bins : List EmbeddedBin) : Kernel where
  sched := schedulerInit
  waits :=
    { queues := fun _ => { head := none, tail := none }
      entries := fun _ => { task := none, prev := none, next := none, queue := none } }
  ctl _ := .user
  vfs := bootMounts.foldl (fun vfs (path, fs) => (vfsMount vfs path fs).1) vfsInit
  files _ := filesInit
  devices := ttyDevices.foldl (fun devices (name, data) =>
    (devRegister devices name ttyDevOps data).1) devInit
  ttys _ := ttyInit
  active := 0
  embeddedBins := bins

end Punix
