/- source: safe_stream/safe_stream_config.h, details/safe_stream_data_message.h
   digest: The configuration both directions assert and the message they exchange. -/

import Mathlib.Algebra.Group.Nat.Defs

set_option autoImplicit false

namespace Ae.SafeStream.Message

def sizeModulus : Nat := 2 ^ 64

def subSize (a b : Nat) : Nat := (a + sizeModulus - b) % sizeModulus

/-- The part of `SafeStreamConfig` that the actions read. Both constructors assert the
window bound, and `RingIndex<Capacity>` admits only the stated capacities. -/
structure SafeStreamConfig (cap : Nat) where
  windowSize : Nat
  maxRepeatCount : UInt8
  window_lt : windowSize < cap / 2
  cap_lt : cap < (sizeModulus - 1) / 2

/-- `DataMessage`: `deltaOffset` counts from the begin of the sender's buffer. -/
structure DataMessage where
  reset : Bool
  repeatCount : UInt8
  deltaOffset : UInt16
  data : List UInt8
  deriving DecidableEq

/-- A ring of eight cells with a window of three, where a chunk is sent at most twice. -/
def smallConfig : SafeStreamConfig 8 := ⟨3, 2, by decide, by decide⟩

variable {cap : Nat}

theorem SafeStreamConfig.two_windows (c : SafeStreamConfig cap) : 2 * c.windowSize + 2 ≤ cap := by
  have := c.window_lt
  omega

theorem subSize_of_le {a b : Nat} (h : b ≤ a) (ha : a < sizeModulus) : subSize a b = a - b := by
  unfold subSize
  rw [show a + sizeModulus - b = a - b + sizeModulus by omega, Nat.add_mod_right]
  exact Nat.mod_eq_of_lt (by omega)

end Ae.SafeStream.Message
