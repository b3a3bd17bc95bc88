import OsCoursework.Shell.Jobs

/-!
# Commands that read files

The calls on descriptors that the built-in commands `sysinfo`, `whoami`, `unsetenv`,
`du` and `usbinfo` make.  What they find in the files is not followed here; `Agreement`
joins `du` and `unsetenv` to the models that follow it.
-/

namespace OsCoursework.Shell

open OsCoursework.Calls

/-- An `ifstream` that is read and goes out of scope. -/
def readStream (path : String) : ShellM Unit := do
  match ← sys (.openFile path.toList .readOnly) with
  | none => pure ()
  | some fd => do
      let _ ← sys (.read fd)
      let _ ← sys (.close fd)
      pure ()

/-- `readFile` of `usbinfo`: whether something was read. -/
def readFile (path : Text) : ShellM Bool := do
  match ← sys (.openFile path .readOnly) with
  | none => pure false
  | some fd => do
      let text ← sys (.read fd)
      let _ ← sys (.close fd)
      pure (text.any (· ≠ []))

/-- `get_uid` and `get_name_gid_and_dir`: whether the line they look for is found. -/
def findInFile (path : String) : ShellM Bool := do
  match ← sys (.openFile path.toList .readOnly) with
  | none => do
      sys (.perror "smash error: open failed")
      pure false
  | some fd => do
      match ← sys (.read fd) with
      | none => do
          sys (.perror "smash error: read failed")
          let _ ← sys (.close fd)
          pure false
      | some _ => do
          if ← sys (.close fd) then sys .undetermined
          else do
            sys (.perror "smash error: close failed")
            pure false

def whoAmIExecute : ShellM Unit := do
  if ← findInFile "/proc/self/status" then do
    let _ ← findInFile "/etc/passwd"
    pure ()
  else pure ()

def sysInfoExecute : ShellM Unit := do
  readStream "/proc/version"
  readStream "/proc/sys/kernel/hostname"
  readStream "/proc/sys/kernel/osrelease"
  readStream "/proc/stat"

def unSetEnvExecute (cmd : CommandData) : ShellM Unit :=
  match cmd.args[1]? with
  | none => cerr "smash error: unsetenv: not enough arguments".toList
  | some _ => do
      match ← sys (.openFile "/proc/self/environ".toList .readOnly) with
      | none => sys (.perror "smash error: open failed")
      | some fdEnv => do
          match ← sys (.read fdEnv) with
          | none => do
              sys (.perror "smash error: read failed")
              sys (.note (.failed .unsetenvRead))
          | some _ => do
              let closed ← sys (.close fdEnv)
              when (closed = false) (sys (.perror "smash error: close failed"))

/-- The body of the loop over the records of a directory. -/
def addEntries (getDirSize : Text → ShellM ℕ) (path : Text) :
    List Text → ℕ → ShellM ℕ
  | [], total => pure total
  | name :: names, total =>
      if name = ".".toList ∨ name = "..".toList then
        addEntries getDirSize path names total
      else do
        let fullPath := path ++ "/".toList ++ name
        match ← sys (.lstat fullPath) with
        | none => do
            sys (.perror "smash error: lstat failed")
            addEntries getDirSize path names total
        | some st =>
            if st.isDir then do
              let size ← getDirSize fullPath
              addEntries getDirSize path names ((total + size) % 2 ^ 64)
            else
              addEntries getDirSize path names ((total + st.blocks * 512) % 2 ^ 64)

/-- The loop over the buffers of `getdents64`. -/
def dirLoop (getDirSize : Text → ShellM ℕ) (path : Text) (fd : ℕ) :
    ℕ → ℕ → ShellM ℕ
  | 0, _ => undefined
  | rounds + 1, total => do
      match ← sys (.getdents fd) with
      | none => do
          sys (.perror "smash error: getdents64 failed")
          pure total
      | some [] => pure total
      | some names => do
          let total ← addEntries getDirSize path names total
          dirLoop getDirSize path fd rounds total

def getDirSize : ℕ → Text → ShellM ℕ
  | 0, _ => undefined
  | depth + 1, path => do
      match ← sys (.openFile path .readOnly) with
      | none => do
          sys (.perror "smash error: open failed")
          pure 0
      | some fd => do
          let total ← dirLoop (getDirSize depth) path fd depth 0
          let _ ← sys (.close fd)
          pure total

def diskUsageExecute (depth : ℕ) (cmd : CommandData) : ShellM Unit := do
  let path := cmd.args[1]?.getD ".".toList
  if cmd.args[1]? ≠ none ∧ cmd.args[2]? ≠ none then
    cerr "smash error: du: too many arguments".toList
  else do
    let totalBytes ← getDirSize depth path
    let totalKB : ℕ := (totalBytes + 1023) % 2 ^ 64 / 1024
    cout ("Total disk usage: ".toList ++ decimal totalKB ++ " KB".toList)

/-- The files that are read for a device. -/
def readDevice (devPath : Text) : ShellM Unit := do
  if ← readFile (devPath ++ "/devnum".toList) then do
    let _ ← readFile (devPath ++ "/idVendor".toList)
    let _ ← readFile (devPath ++ "/idProduct".toList)
    let _ ← readFile (devPath ++ "/manufacturer".toList)
    let _ ← readFile (devPath ++ "/product".toList)
    let _ ← readFile (devPath ++ "/bMaxPower".toList)
    pure ()
  else pure ()

def readDevices (base : Text) : List Text → ShellM Unit
  | [] => pure ()
  | name :: names => do
      let devPath := base ++ "/".toList ++ name
      if name = ".".toList ∨ name = "..".toList then readDevices base names
      else do
        let isDir ← sys .undetermined
        when (isDir = true) (readDevice devPath)
        readDevices base names

def usbInfoExecute : ShellM Unit := do
  let base := "/sys/bus/usb/devices".toList
  match ← sys (.openFile base .readOnly) with
  | none => cerr "smash error: usbinfo: no USB devices found".toList
  | some dir => do
      let names ← sys (.getdents dir)
      readDevices base (names.getD [])
      let _ ← sys (.close dir)
      pure ()

end OsCoursework.Shell
