import PagedKernel.Kernel.Calls

/-! The numeric entry into the kernel: a call number and three words, answered
by one word. -/

namespace PagedKernel

def syscallError : UInt32 := 4294967295

inductive Syscall where
  | exit
  | read
  | map
  | unmap
  deriving DecidableEq

namespace Syscall

def number : Syscall → Nat
  | exit => 1
  | read => 3
  | map => 90
  | unmap => 91

def ofNumber : Nat → Except KernelError Syscall
  | 1 => .ok exit
  | 3 => .ok read
  | 90 => .ok map
  | 91 => .ok unmap
  | n => .error (.unknownSyscall n)

@[simp] theorem ofNumber_number (call : Syscall) : ofNumber call.number = .ok call := by
  cases call <;> rfl

instance : Debug Syscall where
  debug
    | exit => "Exit"
    | read => "Read"
    | map => "Mmap"
    | unmap => "Munmap"

end Syscall

namespace Kernel

/-- Decodes a call and carries it out. Only runnable processes may call. -/
def dispatch (pid : ProcessId) (number : Nat) (arg0 arg1 arg2 : UInt32) :
    Call KernelError Kernel UInt32 := do
  let call ← Syscall.ofNumber number
  let p ← requireProcess pid
  unless p.isRunnable do
    throw (.notRunnable pid p.waiting)
  match call with
  | .exit =>
    exit pid
    return 0
  | .read =>
    let _ ← read pid ⟨arg0.toNat⟩ (.ofBits arg1) arg2.toNat
    return 0
  | .map =>
    let va ← map pid (.ofBits arg0) arg1.toNat (arg2 != 0)
    return va.bits
  | .unmap =>
    unmap pid (.ofBits arg0) arg1.toNat
    return 0

/-- Carries out a call and answers its value, or the error word. -/
def syscall (pid : ProcessId) (number : Nat) (arg0 arg1 arg2 : UInt32) : Op Kernel UInt32 := do
  Op.record (.kernel (.syscall pid number arg0.toNat arg1.toNat arg2.toNat))
  match ← (dispatch pid number arg0 arg1 arg2).run with
  | .ok value => return value
  | .error cause =>
    Op.record (.kernel (.syscallFailed pid number cause))
    return syscallError

end Kernel
end PagedKernel
