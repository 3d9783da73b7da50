/-!
# System calls

How a program for a given system asks the kernel to write: the number of the call, the instruction
that enters the kernel and the registers of the result and the arguments.
-/
namespace SmallLisp.IR

inductive Abi where
  | linuxX64 | linuxArm64 | darwinArm64
deriving DecidableEq

namespace Abi

/-- The convention of the system that a compiler is built for; one that is not known is taken for Linux
on x86-64. -/
def ofSystem (os arch : String) : Abi :=
  if os == "macos" && arch == "aarch64" then darwinArm64
  else if os == "linux" && arch == "aarch64" then linuxArm64
  else linuxX64

/-- The convention that programs are compiled for unless another is named. -/
def host : Abi := ofSystem "linux" "x86_64"

def ofName? : String → Option Abi
  | "linux-x86_64" => some linuxX64
  | "linux-aarch64" => some linuxArm64
  | "darwin-aarch64" => some darwinArm64
  | _ => none

def writeNumber : Abi → Int64
  | linuxX64 => 1
  | linuxArm64 => 64
  | darwinArm64 => 4

def template : Abi → String
  | linuxX64 => "syscall"
  | linuxArm64 => "svc #0"
  | darwinArm64 => "svc #0x80"

/-- Registers of the result, the number and three arguments, and what the kernel overwrites. -/
def constraints : Abi → String
  | linuxX64 =>
    "=\x7brax\x7d,\x7brax\x7d,\x7brdi\x7d,\x7brsi\x7d,\x7brdx\x7d,~\x7brcx\x7d,~\x7br11\x7d,~\x7bmemory\x7d"
  | linuxArm64 => "=\x7bx0\x7d,\x7bx8\x7d,\x7bx0\x7d,\x7bx1\x7d,\x7bx2\x7d,~\x7bmemory\x7d"
  | darwinArm64 => "=\x7bx0\x7d,\x7bx16\x7d,\x7bx0\x7d,\x7bx1\x7d,\x7bx2\x7d,~\x7bmemory\x7d"

end Abi
end SmallLisp.IR
