import LinuxSys.Lib.Bytes

/-! # Writing to a connected socket

What one `write` on a stream socket can return, and the loop that writes a whole buffer. A peer
that closed its end is `gone`; a socket the process shut down itself is `shut`. On either a write
may fail with EPIPE, and unless the process ignores SIGPIPE, blocks it or asks not to be
signalled, that write also kills the process.
-/

namespace LinuxSys.Lib

/-- How a process stands: it runs, it has exited with a status, or a signal killed it. -/
inductive Status where
  | running
  | exited (code : ℕ)
  | killed
deriving DecidableEq, Repr

/-- A connected socket from the process's side. -/
structure Sock where
  gone : Bool := false
  shut : Bool := false
deriving DecidableEq, Repr

def Sock.broken (s : Sock) : Bool := s.gone || s.shut

/-- What one `write` returns: a count, EINTR, EPIPE, or another error. -/
inductive Wrote where
  | count (n : ℕ)
  | intr
  | pipe
  | error
deriving DecidableEq, Repr

/-- A socket that was shut down takes no bytes, and only a broken one fails. -/
def Wrote.possible (sock : Sock) (left : Bytes) : Wrote → Bool
  | .count n => 0 < n && n ≤ left.length && !sock.shut
  | .intr => true
  | .pipe => sock.broken
  | .error => sock.broken

/-- What the loop has left to write after one call; `none` when it gives up. -/
def Wrote.rest (left : Bytes) : Wrote → Option Bytes
  | .count n => some (left.drop n)
  | .intr => some left
  | .pipe => none
  | .error => none

/-- A write to a socket that is not broken does not raise SIGPIPE. -/
theorem Wrote.ne_pipe_of_possible {sock : Sock} {left : Bytes} {w : Wrote}
    (possible : w.possible sock left) (whole : sock.broken = false) : w ≠ .pipe := by
  rintro rfl
  change sock.broken = true at possible
  rw [whole] at possible
  cases possible

end LinuxSys.Lib
