import Mathlib.Init

/-! # The three implementations

The programs of a chapter come in C++, Rust and Go. Where their sources differ, a definition takes
the language.
-/

namespace LinuxSys

inductive Language where
  | cpp
  | rust
  | go
deriving DecidableEq, Repr

end LinuxSys
