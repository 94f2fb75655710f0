import Baloo.ByteTables
import Baloo.UrlTree

/-!
# Ids of files

The id of a file is a number of 64 bits whose first four bytes in memory are the device and whose last
four are the inode, both cut to 32 bits. Devices are numbered anew at every boot, so the id of the file
system, folded into 32 bits, takes the place of the device where there is one. A path has the id `0` if
one of the two system calls fails.

So two paths have the same id exactly if device and inode agree in their lower 32 bits, as hard links do
(`filePathToId_eq_iff`), and the assumption the rest of the development makes on file systems, that different
paths have different ids, is the assumption that no two paths are such a pair (`exists_fileSystem_iff`).
-/

namespace Baloo

/-- The fields of `struct stat` that make an id. -/
structure StatBuf where
  st_dev : ℕ
  st_ino : ℕ
  deriving DecidableEq

/-- What the system calls say about a path; `none` stands for a failure. -/
structure SystemCalls where
  /-- `lstat` -/
  lstat : QByteArray → Option StatBuf
  /-- `statvfs`, as far as `f_fsid`, a number of 64 bits -/
  statvfs : QByteArray → Option ℕ

/-- `devIdAndInodeToId`: an array of two numbers, copied into one. -/
def devIdAndInodeToId (devId inode : ℕ) : DocId := ofHostBytes 8 (hostBytes 4 devId ++ hostBytes 4 inode)

/-- `statBufToId`. -/
def statBufToId (stBuf : StatBuf) : DocId := devIdAndInodeToId (stBuf.st_dev % 2 ^ 32) (stBuf.st_ino % 2 ^ 32)

/-- `statWithFsid`; `none` stands for a result that is not `0`. -/
def statWithFsid (sys : SystemCalls) (path : QByteArray) : Option StatBuf :=
  match sys.lstat path with
  | none => none
  | some statBuf =>
    match sys.statvfs path with
    | none => none
    | some f_fsid =>
      -- fold FSID into 32 bits
      some (if f_fsid ≠ 0 then { statBuf with st_dev := (f_fsid ^^^ (f_fsid >>> 32)) % 2 ^ 32 } else statBuf)

/-- `filePathToId`. -/
def filePathToId (sys : SystemCalls) (path : QByteArray) : DocId :=
  match statWithFsid sys path with
  | none => 0
  | some statBuf => statBufToId statBuf

/-- `idToInode`. -/
def idToInode (id : DocId) : ℕ := ofHostBytes 4 ((hostBytes 8 id).drop 4)

/-- `idToDeviceId`. -/
def idToDeviceId (id : DocId) : ℕ := ofHostBytes 4 (hostBytes 8 id)

/-! ## The bytes of an id -/

theorem ofBytesFrom_append (acc : ℕ) (xs ys : QByteArray) :
    BigEndian.ofBytesFrom acc (xs ++ ys) = BigEndian.ofBytesFrom (BigEndian.ofBytesFrom acc xs) ys := by
  rw [BigEndian.ofBytesFrom, List.foldl_append]
  rfl

theorem toBytes_append (width rest n : ℕ) : BigEndian.toBytes (width + rest) n =
    BigEndian.toBytes width (n / 256 ^ rest) ++ BigEndian.toBytes rest (n % 256 ^ rest) := by
  induction width generalizing n with
  | zero =>
    cases rest with
    | zero => rfl
    | succ rest =>
      have hbyte : UInt8.ofNat (n / 256 ^ rest % 256) = UInt8.ofNat (n / 256 ^ rest) :=
        UInt8.toNat_inj.mp (by simp)
      rw [Nat.zero_add, BigEndian.toBytes, BigEndian.toBytes, BigEndian.toBytes, List.nil_append, Nat.pow_succ,
        Nat.mod_mul_right_div_self, hbyte, Nat.mod_mod_of_dvd _ (Nat.dvd_mul_right _ _)]
  | succ width ih =>
    have hpow : 256 ^ (width + rest) = 256 ^ rest * 256 ^ width := by rw [Nat.pow_add, Nat.mul_comm]
    rw [Nat.add_right_comm, BigEndian.toBytes, ih, BigEndian.toBytes, List.cons_append, Nat.div_div_eq_div_mul,
      hpow, Nat.mod_mul_right_div_self, Nat.mod_mod_of_dvd _ (Nat.dvd_mul_right _ _)]

theorem devIdAndInodeToId_eq {devId inode : ℕ} (hdev : devId < 2 ^ 32) (hinode : inode < 2 ^ 32) :
    devIdAndInodeToId devId inode = devId + 2 ^ 32 * inode := by
  have hdev : devId < 256 ^ 4 := hdev
  have hinode : inode < 256 ^ 4 := hinode
  rw [devIdAndInodeToId, ofHostBytes, List.take_of_length_le (by simp), List.reverse_append, hostBytes, hostBytes,
    List.reverse_reverse, List.reverse_reverse, BigEndian.ofBytes, ofBytesFrom_append,
    BigEndian.ofBytesFrom_toBytes 4 hinode, BigEndian.ofBytesFrom_toBytes 4 hdev]
  norm_num
  ring

/-- An id in memory: the device, then the inode. -/
theorem hostBytes_id (id : DocId) : hostBytes 8 id = hostBytes 4 (id % 2 ^ 32) ++ hostBytes 4 (id / 2 ^ 32) := by
  have happend := toBytes_append 4 4 id
  have hpow : (256 : ℕ) ^ 4 = 2 ^ 32 := by norm_num
  rw [hostBytes, happend, List.reverse_append, hostBytes, hostBytes, hpow]

theorem idToDeviceId_eq (id : DocId) : idToDeviceId id = id % 2 ^ 32 := by
  have hlt : id % 2 ^ 32 < 256 ^ 4 := Nat.mod_lt _ (Nat.two_pow_pos 32)
  rw [idToDeviceId, hostBytes_id, ofHostBytes_append hlt]

theorem idToInode_eq {id : DocId} (h : id < 2 ^ 64) : idToInode id = id / 2 ^ 32 := by
  have hlt : id / 2 ^ 32 < 256 ^ 4 := by
    rw [Nat.div_lt_iff_lt_mul (Nat.two_pow_pos 32)]
    exact h
  have hrest := ofHostBytes_append hlt []
  rw [List.append_nil] at hrest
  rw [idToInode, hostBytes_id, List.drop_left' (length_hostBytes 4 _), hrest]

/-! ## Which paths share an id -/

section Paths

variable {sys : SystemCalls}

/-- Device and inode of a path, cut to 32 bits, if both system calls succeed. -/
def devicePlace (sys : SystemCalls) (path : QByteArray) : Option (ℕ × ℕ) :=
  (statWithFsid sys path).map fun statBuf => (statBuf.st_dev % 2 ^ 32, statBuf.st_ino % 2 ^ 32)

theorem filePathToId_eq (sys : SystemCalls) (path : QByteArray) : filePathToId sys path =
    match devicePlace sys path with
    | none => 0
    | some (device, inode) => device + 2 ^ 32 * inode := by
  rw [filePathToId, devicePlace]
  cases statWithFsid sys path with
  | none => rfl
  | some statBuf =>
    exact devIdAndInodeToId_eq (Nat.mod_lt _ (by norm_num)) (Nat.mod_lt _ (by norm_num))

theorem devicePlace_lt {path : QByteArray} {device inode : ℕ} (h : devicePlace sys path = some (device, inode)) :
    device < 2 ^ 32 ∧ inode < 2 ^ 32 := by
  obtain ⟨statBuf, -, heq⟩ := Option.map_eq_some_iff.mp h
  obtain ⟨rfl, rfl⟩ := Prod.mk.inj heq
  exact ⟨Nat.mod_lt _ (by norm_num), Nat.mod_lt _ (by norm_num)⟩

/-- The id gives device and inode back. -/
theorem id_parts {path : QByteArray} {device inode : ℕ} (h : devicePlace sys path = some (device, inode)) :
    idToDeviceId (filePathToId sys path) = device ∧ idToInode (filePathToId sys path) = inode := by
  obtain ⟨hdevice, hinode⟩ := devicePlace_lt h
  have hid : filePathToId sys path = device + 2 ^ 32 * inode := by rw [filePathToId_eq, h]
  have hbound : device + 2 ^ 32 * inode < 2 ^ 64 := by omega
  rw [idToDeviceId_eq, idToInode_eq (hid ▸ hbound), hid, Nat.add_mul_mod_self_left, Nat.mod_eq_of_lt hdevice,
    Nat.add_mul_div_left _ _ (Nat.two_pow_pos 32), Nat.div_eq_of_lt hdevice, Nat.zero_add]
  exact ⟨rfl, rfl⟩

/-- A path has no id if a system call fails, and for the one file whose numbers are both cut to `0`. -/
theorem filePathToId_eq_zero {path : QByteArray} :
    filePathToId sys path = 0 ↔ devicePlace sys path = none ∨ devicePlace sys path = some (0, 0) := by
  rw [filePathToId_eq]
  rcases devicePlace sys path with _ | ⟨device, inode⟩
  · simp
  · simp

/-- **Two paths that have an id have the same one exactly if the lower 32 bits of device and of inode
agree.** -/
theorem filePathToId_eq_iff {path path' : QByteArray} (h : filePathToId sys path ≠ 0)
    (h' : filePathToId sys path' ≠ 0) :
    filePathToId sys path = filePathToId sys path' ↔ devicePlace sys path = devicePlace sys path' := by
  refine ⟨fun heq => ?_, fun heq => by rw [filePathToId_eq, filePathToId_eq, heq]⟩
  rw [Ne, filePathToId_eq_zero] at h h'
  rcases hp : devicePlace sys path with _ | ⟨device, inode⟩
  · exact absurd (.inl hp) h
  · rcases hp' : devicePlace sys path' with _ | ⟨device', inode'⟩
    · exact absurd (.inl hp') h'
    · obtain ⟨hdevice, hinode⟩ := id_parts hp
      obtain ⟨hdevice', hinode'⟩ := id_parts hp'
      rw [← hdevice, ← hinode, ← hdevice', ← hinode', heq]

/-- **The ids are those of a file system, as the development assumes one, exactly if only absolute paths have an
id and no two of them share device and inode in their lower 32 bits.** -/
theorem exists_fileSystem_iff (sys : SystemCalls) :
    (∃ fs : FileSystem, fs.filePathToId = filePathToId sys) ↔
      (∀ path, filePathToId sys path ≠ 0 → IsPath path) ∧
        ∀ path path', filePathToId sys path ≠ 0 → devicePlace sys path = devicePlace sys path' → path = path' := by
  constructor
  · rintro ⟨fs, hfs⟩
    have hlstat : ∀ path, filePathToId sys path ≠ 0 → fs.lstat path = some (filePathToId sys path) := fun path hne => by
      rw [← hfs, FileSystem.filePathToId] at hne ⊢
      cases hpath : fs.lstat path with
      | none => simp [hpath] at hne
      | some id => rfl
    refine ⟨fun path hne => fs.isPath path _ (hlstat path hne), fun path path' hne hplace => ?_⟩
    have heq : filePathToId sys path' = filePathToId sys path := by rw [filePathToId_eq, filePathToId_eq, hplace]
    exact fs.injective path path' _ (hlstat path hne) (heq ▸ hlstat path' (heq ▸ hne))
  · rintro ⟨hpath, hinjective⟩
    refine ⟨{ lstat := fun path => if filePathToId sys path = 0 then none else some (filePathToId sys path)
              isPath := fun path id h => ?_, ne_zero := fun path h => ?_, injective := fun path path' id h h' => ?_ },
      funext fun path => ?_⟩
    · split at h
      · cases h
      · next hne => exact hpath path hne
    · split at h
      · cases h
      · next hne => exact hne (Option.some.inj h)
    · split at h
      · cases h
      · next hne =>
        split at h'
        · cases h'
        · next hne' =>
          refine hinjective path path' hne ((filePathToId_eq_iff hne hne').mp ?_)
          rw [Option.some.inj h, Option.some.inj h']
    · rw [FileSystem.filePathToId]
      dsimp only
      split
      · next hzero => exact hzero.symm
      · rfl

end Paths

end Baloo
