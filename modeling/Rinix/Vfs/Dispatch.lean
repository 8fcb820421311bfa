import Rinix.Lib.ByteMemory
import Rinix.Lib.Calls

namespace Rinix.Vfs

open ByteMemory Calls

structure Inode where
  flags : Word
  read : Word
  write : Word
  open' : Word
  close : Word
  readdir : Word
  finddir : Word

def vfsDir : Word := 0x02

inductive Call where
  | read (f node offset size buffer : Word)
  | write (f node offset size buffer : Word)
  | open' (f node : Word)
  | close (f node : Word)
  | readdir (f node index : Word)
  | finddir (f node name : Word)

def truth (p : Prop) [Decidable p] : Word := if p then 1 else 0

def vfsRead (inode : Inode) (node offset size buffer : Word) : Prog Call Word :=
  tail (inode.read ≠ 0) (.read inode.read node offset size buffer) 0

def vfsWrite (inode : Inode) (node offset size buffer : Word) : Prog Call Word :=
  tail (inode.write ≠ 0) (.write inode.write node offset size buffer) 0

/-- `stray` stands for `offset`, `size` and `buffer`, which the function uses and does not have. -/
def vfsOpen (stray : Word × Word × Word) (inode : Inode) (node : Word) (_read _write : Byte) :
    Prog Call Word :=
  tail (inode.open' ≠ 0) (.write inode.write node stray.1 stray.2.1 stray.2.2) 0

def vfsClose (inode : Inode) (node : Word) : Prog Call Word :=
  tail (inode.close ≠ 0) (.close inode.close node) 0

/-- `==` binds closer than `&`. -/
def typeTest (inode : Inode) : Word := inode.flags &&& truth (0x7 = vfsDir)

def vfsReaddir (inode : Inode) (node index : Word) : Prog Call Word :=
  tail (typeTest inode ≠ 0 ∧ inode.readdir ≠ 0) (.readdir inode.readdir node index) 0

def vfsFinddir (inode : Inode) (node name : Word) : Prog Call Word :=
  tail (typeTest inode ≠ 0 ∧ inode.finddir ≠ 0) (.finddir inode.finddir node name) 0

inductive Request where
  | read (offset size buffer : Word)
  | write (offset size buffer : Word)
  | open' (read write : Byte)
  | close
  | readdir (index : Word)
  | finddir (name : Word)

def serve (stray : Word × Word × Word) (inode : Inode) (node : Word) : Request → Prog Call Word
  | .read offset size buffer => vfsRead inode node offset size buffer
  | .write offset size buffer => vfsWrite inode node offset size buffer
  | .open' read write => vfsOpen stray inode node read write
  | .close => vfsClose inode node
  | .readdir index => vfsReaddir inode node index
  | .finddir name => vfsFinddir inode node name

def IsDir (inode : Inode) : Prop := inode.flags &&& 0x7 = vfsDir

instance (inode : Inode) : Decidable (IsDir inode) := inferInstanceAs (Decidable (_ = _))

def wanted (inode : Inode) (node : Word) : Request → Prog Call Word
  | .read offset size buffer => tail (inode.read ≠ 0) (.read inode.read node offset size buffer) 0
  | .write offset size buffer => tail (inode.write ≠ 0) (.write inode.write node offset size buffer) 0
  | .open' _ _ => tail (inode.open' ≠ 0) (.open' inode.open' node) 0
  | .close => tail (inode.close ≠ 0) (.close inode.close node) 0
  | .readdir index => tail (IsDir inode ∧ inode.readdir ≠ 0) (.readdir inode.readdir node index) 0
  | .finddir name => tail (IsDir inode ∧ inode.finddir ≠ 0) (.finddir inode.finddir node name) 0

def Dispatched (stray : Word × Word × Word) (inode : Inode) (node : Word) (request : Request) : Prop :=
  ∀ answer, (serve stray inode node request).trace answer = (wanted inode node request).trace answer

def Unaffected (inode : Inode) : Request → Prop
  | .open' _ _ => inode.open' = 0
  | .readdir _ => ¬(IsDir inode ∧ inode.readdir ≠ 0)
  | .finddir _ => ¬(IsDir inode ∧ inode.finddir ≠ 0)
  | _ => True

variable {inode : Inode}

theorem typeTest_zero (inode : Inode) : typeTest inode = 0 := BitVec.and_zero

theorem dir_never (inode : Inode) (p : Prop) : ¬(typeTest inode ≠ 0 ∧ p) := fun h => h.1 (typeTest_zero inode)

theorem dir_request_iff (inode : Inode) (f : Word) (c : Call) :
    (∀ answer : Call → Word, (tail (typeTest inode ≠ 0 ∧ f ≠ 0) c 0).trace answer =
      (tail (IsDir inode ∧ f ≠ 0) c 0).trace answer) ↔ ¬(IsDir inode ∧ f ≠ 0) := by
  have hnever := dir_never inode (f ≠ 0)
  rw [same_trace_iff]
  constructor
  · rintro ⟨hiff, -⟩ hdir
    exact hnever (hiff.mpr hdir)
  · intro hdir
    exact ⟨iff_of_false hnever hdir, fun h => absurd h hnever⟩

theorem open_request_iff (stray : Word × Word × Word) (inode : Inode) (node : Word) (read write : Byte) :
    Dispatched stray inode node (.open' read write) ↔ inode.open' = 0 := by
  refine same_trace_iff.trans ⟨?_, fun hnone => ⟨Iff.rfl, fun hsome => absurd hnone hsome⟩⟩
  rintro ⟨-, hcall⟩
  by_contra hsome
  cases hcall hsome

/-- An open request goes to `write`, nothing counts as a directory, and other requests arrive. -/
theorem dispatched_iff (stray : Word × Word × Word) (inode : Inode) (node : Word) (request : Request) :
    Dispatched stray inode node request ↔ Unaffected inode request := by
  cases request with
  | read offset size buffer => exact iff_of_true (fun _ => rfl) trivial
  | write offset size buffer => exact iff_of_true (fun _ => rfl) trivial
  | open' read write => exact open_request_iff stray inode node read write
  | close => exact iff_of_true (fun _ => rfl) trivial
  | readdir index => exact dir_request_iff inode inode.readdir _
  | finddir name => exact dir_request_iff inode inode.finddir _

theorem directory_missed : ¬Dispatched (0, 0, 0) ⟨0x02, 0, 0, 0, 0, 0x1000, 0⟩ 0x2000 (.readdir 0) ∧
    ¬Dispatched (0, 0, 0) ⟨0x01, 0, 0x1000, 0x1400, 0, 0, 0⟩ 0x2000 (.open' 1 0) := by
  constructor
  · intro h
    refine (dir_request_iff ⟨0x02, 0, 0, 0, 0, 0x1000, 0⟩ 0x1000 _).mp h ?_
    decide
  · rw [open_request_iff]
    decide

end Rinix.Vfs
