import Dirlist.Byte

/-! Strings that end with a zero byte. -/

namespace Dirlist

/-- A string of the source, up to the zero that ends it. -/
abbrev CStr := { s : Bytes // 0 ∉ s }

/-- What a copy of the bytes `x` is worth as a string. -/
def CStr.ofBytes (x : Bytes) : CStr where
  val := x.takeWhile (· ≠ 0)
  property h := by simpa using List.mem_takeWhile_imp h

theorem CStr.ofBytes_val (s : CStr) : CStr.ofBytes s.val = s := by
  refine Subtype.ext (List.takeWhile_eq_self_iff.mpr fun c hc => ?_)
  exact decide_eq_true fun h => s.property (h ▸ hc)

end Dirlist
