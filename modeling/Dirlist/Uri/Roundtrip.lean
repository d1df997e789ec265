import Dirlist.Fmt
import Dirlist.Uri.Defs

/-! What `uri_fmt` writes is taken apart by `uri_scan` again. Every search stops at the byte that the formatter put
behind the part it looks for: one lemma for each part. -/

namespace Dirlist
open Run

/-- The parts are there and do not run into each other. -/
structure Uri.Formed (u : Uri) : Prop where
  proto : ∃ p, u.proto = some p ∧ ¬protoEnd <:+: p.val
  host : ∃ h, u.host = some h ∧ h.val ≠ [] ∧ ∀ c ∈ h.val, c ≠ 64 ∧ c ∉ hostDelim
  username : ∀ n ∈ u.username, ∀ c ∈ n.val, c ≠ 58 ∧ c ≠ 47 ∧ c ≠ 64
  password : ∀ p ∈ u.password, u.username ≠ none ∧ ∀ c ∈ p.val, c ≠ 47 ∧ c ≠ 64
  port : u.proto = some protoHttp ∨ u.proto = some protoHttps → u.port ≠ 0
  location : ∃ l, u.location = some l ∧ l.val.head? = some 47 ∧ ∀ c ∈ l.val, c ∉ locationDelim
  anchor : ∀ a ∈ u.anchor, ∃ rest, a.val = 35 :: rest ∧ ∀ c ∈ rest, c ∉ locationDelim

variable {u v : Uri} {x a b w : Bytes}

/-! ## Searches -/

theorem strNdup_at (a : Bytes) (s : CStr) (b : Bytes) : strNdup (a ++ (s.val ++ b)) a.length s.val.length = s := by
  rw [strNdup, List.drop_left, List.take_left, CStr.ofBytes_val]

theorem byteChrs_at {needles : Bytes} (hx : ∀ c ∈ x, c ∉ needles) (hb : ∀ c ∈ b.head?, c ∈ needles) :
    byteChrs needles (x ++ b) = x.length := by
  have hstop : (x ++ b).takeWhile (· ∉ needles) = x :=
    takeWhile_stop (fun c hc => decide_eq_true (hx c hc)) fun c hc => decide_eq_false (not_not.mpr (hb c hc))
  rw [byteChrs, hstop]

/-- The end of the protocol is not found earlier. -/
theorem byteFindb_proto (hx : ¬protoEnd <:+: x) (b : Bytes) : byteFindb protoEnd (x ++ (protoEnd ++ b)) = x.length := by
  induction x with
  | nil => exact byteFindb_here (by decide) (List.prefix_append _ _)
  | cons c x ih =>
    obtain ⟨hpre, hrest⟩ := not_or.mp (mt List.infix_cons_iff.mpr hx)
    rw [List.cons_append, byteFindb_cons, ih hrest, List.length_cons]
    rintro ⟨t, ht⟩
    match x with
    | [] => simp [protoEnd] at ht
    | [d] => simp [protoEnd] at ht
    | d :: e :: x =>
      simp only [protoEnd, List.cons_append, List.nil_append, List.cons.injEq] at ht
      obtain ⟨rfl, rfl, rfl, -⟩ := ht
      exact hpre ⟨x, rfl⟩

theorem scanUshort_fmtUlong {n : Nat} (hn : n < 2 ^ 16) (hb : ∀ c ∈ b.head?, isdigit c = false) (dest : Nat) :
    scanUshort (fmtUlong n ++ b) dest = ((fmtUlong n).length, n) := by
  obtain ⟨hval, hne, hdig⟩ := fmtFrom_digits (Nat.le_refl n)
  have hscan := scanUshortFrom_digits 0 hdig hb (hval.trans_lt hn)
  rw [scanUshort, fmtUlong, hscan]
  simp only [gt_iff_lt, List.length_pos_iff.mpr hne, if_true]
  exact congrArg _ hval

/-! ## Scanning the parts -/

theorem uriScanProto_eq (v : Uri) {p : CStr} (hp : ¬protoEnd <:+: p.val) (b : Bytes) :
    uriScanProto v (p.val ++ (protoEnd ++ b)) = ((p.val ++ protoEnd).length, { v with proto := some p }) := by
  have hcopy : strNdup (p.val ++ (protoEnd ++ b)) 0 p.val.length = p := strNdup_at [] p _
  rw [uriScanProto, byteFindb_proto hp]
  simp only [hcopy]
  rw [if_pos (by simp [protoEnd]), List.length_append]
  rfl

/-- Without an `@` there is no user. -/
theorem uriScanUser_none (v : Uri) (hw : 64 ∉ w) (a b : Bytes) :
    uriScanUser v (a ++ (w ++ b)) a.length (a.length + w.length) = (a.length, v) := by
  simp only [uriScanUser, List.drop_left, Nat.add_sub_cancel_left, List.take_left, byteChr_free hw, lt_irrefl, if_false]

theorem uriScanUser_some {n : CStr} (hu : u.username = some n) (hv : v.password = none)
    (hn : 58 ∉ n.val ∧ 64 ∉ n.val) (hp : ∀ p ∈ u.password, 64 ∉ p.val) (a w b : Bytes) :
    uriScanUser v (a ++ (fmtUser u ++ w ++ b)) a.length (a.length + (fmtUser u ++ w).length) =
      (a.length + (fmtUser u).length, { v with username := u.username, password := u.password }) := by
  have hfmt : fmtUser u = n.val ++ fmtPassword u ++ [64] := by rw [fmtUser, hu]
  have hat : 64 ∉ n.val ++ fmtPassword u := by
    rw [fmtPassword]
    split <;> simp_all
  have hfind : byteChr 64 (fmtUser u ++ w) = (n.val ++ fmtPassword u).length := by
    rw [hfmt, List.append_assoc, List.singleton_append, byteChr_at hat]
  have hname : byteChr 58 (n.val ++ fmtPassword u) = n.val.length := by
    rw [fmtPassword]
    split
    · exact byteChr_at hn.1 _
    · rw [List.append_nil, byteChr_free hn.1]
  have hlen : (fmtUser u).length = n.val.length + (fmtPassword u).length + 1 := by
    rw [hfmt, List.length_append, List.length_append, List.length_singleton]
  have hlt : a.length + (n.val ++ fmtPassword u).length < a.length + (fmtUser u ++ w).length := by
    rw [List.length_append, List.length_append, hlen]
    omega
  have htake : (fmtUser u ++ w ++ b).take (n.val ++ fmtPassword u).length = n.val ++ fmtPassword u := by
    rw [hfmt, List.append_assoc, List.append_assoc, List.take_left]
  have hcopy : strNdup (a ++ (fmtUser u ++ w ++ b)) a.length n.val.length = n := by
    rw [hfmt, List.append_assoc n.val, List.append_assoc n.val, List.append_assoc n.val, strNdup_at]
  simp only [uriScanUser, List.drop_left, Nat.add_sub_cancel_left, List.take_left, hfind, if_pos hlt, htake, hname,
    hcopy]
  cases hq : u.password with
  | none =>
    have hnone : fmtPassword u = [] := by rw [fmtPassword, hq]
    rw [hnone] at hlen ⊢
    rw [if_neg (by simp), hlen, hu, ← hv, List.append_nil]
    rfl
  | some p =>
    have hsome : fmtPassword u = 58 :: p.val := by rw [fmtPassword, hq]
    have hx : a ++ (fmtUser u ++ w ++ b) = a ++ n.val ++ [58] ++ (p.val ++ (64 :: w ++ b)) := by
      rw [hfmt, hsome]
      simp only [List.append_assoc, List.cons_append, List.nil_append]
    have hstart : (a ++ n.val ++ [58]).length = a.length + n.val.length + 1 := by simp; omega
    have hpass : strNdup (a ++ (fmtUser u ++ w ++ b)) (a.length + n.val.length + 1) p.val.length = p := by
      rw [hx, ← hstart, strNdup_at]
    have hend : a.length + (n.val ++ fmtPassword u).length = a.length + n.val.length + 1 + p.val.length := by
      rw [hsome, List.length_append, List.length_cons]
      omega
    rw [if_pos (by omega), hend, Nat.add_sub_cancel_left, hpass, hu]
    simp only [hlen, hsome, List.length_cons]
    congr 1
    omega

theorem uriScanUser_eq (hu : u.Formed) (hv : v.username = none ∧ v.password = none) (hw : 64 ∉ w) (a b : Bytes) :
    uriScanUser v (a ++ (fmtUser u ++ w ++ b)) a.length (a.length + (fmtUser u ++ w).length) =
      (a.length + (fmtUser u).length, { v with username := u.username, password := u.password }) := by
  cases hn : u.username with
  | some n =>
    have hname := hu.username n hn
    rw [uriScanUser_some hn hv.2 ⟨fun h => (hname _ h).1 rfl, fun h => (hname _ h).2.2 rfl⟩
      (fun p hp h => ((hu.password p hp).2 _ h).2 rfl), hn]
  | none =>
    have hfmt : fmtUser u = [] := by rw [fmtUser, hn]
    have hpass : u.password = none := Option.eq_none_iff_forall_not_mem.mpr fun p hp => (hu.password p hp).1 hn
    cases v
    dsimp only at hv
    rw [hfmt, List.nil_append, uriScanUser_none _ hw, hpass, hv.1, hv.2]
    rfl

/-! ## Host and port -/

theorem fmtPort_cases (u : Uri) :
    fmtPort u = 58 :: fmtUlong u.port.toNat ∨ fmtPort u = [] ∧ (u.port = 0 ∨
      u.proto = some protoHttp ∧ u.port = 80 ∨ u.proto = some protoHttps ∧ u.port = 443) := by
  rw [fmtPort]
  split_ifs with h
  · exact .inl rfl
  · refine .inr ⟨rfl, ?_⟩
    tauto

theorem uriScanPort_eq {h : CStr} (hh : h.val ≠ [] ∧ ∀ c ∈ h.val, c ∉ hostDelim) (hv : v.port = 0) (a b : Bytes) :
    uriScanPort v (a ++ (h.val ++ fmtPort u ++ 47 :: b)) a.length = .ok (a.length + (h.val ++ fmtPort u).length,
      { v with host := some h, port := if fmtPort u = [] then 0 else u.port }) := by
  have hlen := List.length_pos_iff.mpr hh.1
  have hcopy : strNdup (a ++ (h.val ++ fmtPort u ++ 47 :: b)) a.length h.val.length = h := by
    rw [List.append_assoc, strNdup_at]
  have hfind : uriScanHost (h.val ++ fmtPort u ++ 47 :: b) = h.val.length := by
    rw [uriScanHost, List.append_assoc]
    refine byteChrs_at hh.2 ?_
    rcases fmtPort_cases u with hport | ⟨hport, -⟩ <;> simp [hport, hostDelim]
  have hx : a ++ (h.val ++ fmtPort u ++ 47 :: b) = (a ++ h.val) ++ (fmtPort u ++ 47 :: b) := by
    simp only [List.append_assoc]
  rw [uriScanPort, List.drop_left, hfind, if_pos (by omega)]
  simp only [Nat.add_sub_cancel_left, hcopy]
  rw [hx, ← List.length_append]
  rcases fmtPort_cases u with hport | ⟨hport, -⟩
  · obtain ⟨-, hne, -⟩ := fmtFrom_digits (Nat.le_refl u.port.toNat)
    have hscan := scanUshort_fmtUlong u.port.toNat_lt (b := 47 :: b) (by simp [isdigit]) v.port.toNat
    have hdrop : ((a ++ h.val) ++ (58 :: fmtUlong u.port.toNat ++ 47 :: b)).drop ((a ++ h.val).length + 1) =
        fmtUlong u.port.toNat ++ 47 :: b := by
      rw [← List.drop_drop, List.drop_left]
      rfl
    have hpos : (fmtUlong u.port.toNat).length > 0 := List.length_pos_iff.mpr hne
    rw [hport, List.cons_append, byteAt_append, ok_bind, if_pos rfl, ← List.cons_append, hdrop, hscan]
    simp only [if_pos hpos, UInt16.ofNat_toNat, List.cons_ne_nil, if_false, List.length_append, List.length_cons]
    congr 2
    omega
  · rw [hport, List.nil_append, byteAt_append, ok_bind, if_neg (by decide), List.append_nil, if_pos rfl, hv,
      List.length_append]

/-! ## Location and anchor -/

theorem uriScanLocation_eq {l : CStr} (hl : l.val.head? = some 47 ∧ ∀ c ∈ l.val, c ∉ locationDelim)
    (hb : ∀ c ∈ b.head?, c = 35) (a : Bytes) (e : Nat) :
    uriScanLocation v (a ++ (l.val ++ b)) a.length e =
      .ok (a.length + l.val.length, a.length + l.val.length, { v with location := some l }) := by
  obtain ⟨t, ht⟩ := List.head?_eq_some_iff.mp hl.1
  have hlen : 0 < l.val.length := by simp [ht]
  have hfind : byteChrs locationDelim (l.val ++ b) = l.val.length :=
    byteChrs_at hl.2 fun c hc => by simp [hb c hc, locationDelim]
  have hfirst : byteAt (a ++ (l.val ++ b)) a.length = .ok 47 := by rw [ht, List.cons_append, byteAt_append]
  rw [uriScanLocation, List.drop_left, hfind]
  simp only [List.length_append]
  rw [if_neg (by omega), if_pos (by omega)]
  simp only [hfirst, ok_bind, Nat.add_sub_cancel_left, strNdup_at]
  rw [if_pos (by omega), if_neg (by decide)]

theorem uriScanAnchor_eq (ha : ∀ s ∈ u.anchor, ∃ t, s.val = 35 :: t ∧ ∀ c ∈ t, c ∉ locationDelim) (a : Bytes) :
    uriScanAnchor v (a ++ fmtStr u.anchor) a.length a.length =
      (a.length + (fmtStr u.anchor).length, { v with anchor := u.anchor }) := by
  rw [uriScanAnchor, List.drop_left]
  cases hs : u.anchor with
  | none => simp [fmtStr]
  | some s =>
    obtain ⟨t, ht, hfree⟩ := ha s hs
    have hplain : ∀ c ∈ s.val, c ∉ anchorDelim := by
      rw [ht]
      refine List.forall_mem_cons.mpr ⟨by decide, fun c hc hd => hfree c hc (List.mem_cons_of_mem 35 hd)⟩
    have hfind : byteChrs anchorDelim s.val = s.val.length := by
      rw [← List.append_nil s.val, byteChrs_at hplain (by simp), List.append_nil]
    have hcopy : strNdup (a ++ s.val) a.length s.val.length = s := by
      have h := strNdup_at a s []
      rwa [List.append_nil] at h
    have hfmt : fmtStr (some s) = s.val := rfl
    rw [hfmt, if_pos (by rw [ht]; rfl), hfind]
    simp only [Nat.add_sub_cancel_left, hcopy]

/-- The port that was left out is the one that goes without saying. -/
theorem uriScanDefault_eq (h : u.proto = some protoHttp ∨ u.proto = some protoHttps → u.port ≠ 0) :
    uriScanDefault { u with port := if fmtPort u = [] then 0 else u.port } = u := by
  have hne : protoHttp ≠ protoHttps := by decide
  obtain ⟨proto, host, port, location, username, password, anchor⟩ := u
  rcases fmtPort_cases ⟨proto, host, port, location, username, password, anchor⟩ with hport | ⟨hport, hdefault⟩
  · simp only [uriScanDefault, hport, List.cons_ne_nil, if_false]
    rw [if_neg fun hp => h (.inr hp.2) hp.1, if_neg fun hp => h (.inl hp.2) hp.1]
  · simp only [uriScanDefault, hport, if_true, true_and]
    rcases hdefault with hzero | ⟨hproto, hp⟩ | ⟨hproto, hp⟩
    · dsimp only at h hzero
      rw [if_neg fun hp => h (.inr hp) hzero, if_neg fun hp => h (.inl hp) hzero, hzero]
    · dsimp only at hproto hp
      rw [hproto, if_neg (by simp [hne]), if_pos rfl, hp]
    · dsimp only at hproto hp
      rw [hproto, if_pos rfl, hp]

/-! ## The whole text -/

theorem slash_not_mem_fmtUser (hu : u.Formed) : 47 ∉ fmtUser u := by
  rw [fmtUser]
  split
  · next n hn =>
    have hname : 47 ∉ n.val := fun h => (hu.username n hn 47 h).2.1 rfl
    have hpass : 47 ∉ fmtPassword u := by
      rw [fmtPassword]
      split
      · next p hp => simpa using fun h => ((hu.password p hp).2 47 h).1 rfl
      · exact List.not_mem_nil
    simp [hname, hpass]
  · exact List.not_mem_nil

theorem fmtPort_mem (u : Uri) : ∀ c ∈ fmtPort u, c = 58 ∨ isdigit c = true := by
  rcases fmtPort_cases u with h | ⟨h, -⟩
  · rw [h]
    exact List.forall_mem_cons.mpr ⟨.inl rfl, fun c hc => .inr ((fmtFrom_digits (Nat.le_refl _)).2.2 c hc)⟩
  · simp [h]

theorem fmtStr_head {o : Option CStr} (ho : ∀ s ∈ o, ∃ t, s.val = 35 :: t ∧ ∀ c ∈ t, c ∉ locationDelim) :
    ∀ c ∈ (fmtStr o).head?, c = 35 := by
  cases o with
  | none => simp [fmtStr]
  | some s =>
    obtain ⟨t, ht, -⟩ := ho s rfl
    simp [fmtStr, ht]

theorem uriScan_uriFmt (hu : u.Formed) : uriScan uriInit (uriFmt u) = .ok ((uriFmt u).length, u) := by
  obtain ⟨p, hproto, hp⟩ := hu.proto
  obtain ⟨h, hhost, hne, hh⟩ := hu.host
  obtain ⟨l, hloc, hslash, hl⟩ := hu.location
  obtain ⟨t, ht⟩ := List.head?_eq_some_iff.mp hslash
  obtain ⟨w, hw⟩ : ∃ w, w = h.val ++ fmtPort u := ⟨_, rfl⟩
  obtain ⟨a, ha⟩ : ∃ a, a = p.val ++ protoEnd := ⟨_, rfl⟩
  have hfmt : uriFmt u = a ++ (fmtUser u ++ w ++ (l.val ++ fmtStr u.anchor)) := by
    simp [uriFmt, fmtProto, hproto, hhost, hloc, fmtStr, ha, hw]
  have hfree : ∀ d : UInt8, d ∉ h.val → d ≠ 58 → isdigit d = false → d ∉ w := by
    intro d hd hcolon hdig hmem
    rcases List.mem_append.mp (hw ▸ hmem) with hmem | hmem
    · exact hd hmem
    · exact (fmtPort_mem u d hmem).elim hcolon fun h => Bool.false_ne_true (hdig.symm.trans h)
  have hat : 64 ∉ w := hfree 64 (fun hc => (hh 64 hc).1 rfl) (by decide) (by decide)
  have hend : byteChrs [47] ((uriFmt u).drop a.length) = (fmtUser u ++ w).length := by
    rw [hfmt, List.drop_left]
    refine byteChrs_at (fun c hc hslash => ?_) (by simp [ht])
    obtain rfl := List.mem_singleton.mp hslash
    rcases List.mem_append.mp hc with hc | hc
    · exact slash_not_mem_fmtUser hu hc
    · exact hfree 47 (fun hc => (hh 47 hc).2 (by decide)) (by decide) (by decide) hc
  -- one search after the other, each from where the last one ended
  have hscanProto (v : Uri) : uriScanProto v (uriFmt u) = (a.length, { v with proto := some p }) := by
    rw [hfmt, ha, List.append_assoc, uriScanProto_eq v hp]
  have hscanUser (v : Uri) (hv : v.username = none ∧ v.password = none) :
      uriScanUser v (uriFmt u) a.length (a.length + (fmtUser u ++ w).length) =
        ((a ++ fmtUser u).length, { v with username := u.username, password := u.password }) := by
    rw [hfmt, uriScanUser_eq hu hv hat, @List.length_append _ _ (fmtUser u)]
  have hscanPort (v : Uri) (hv : v.port = 0) : uriScanPort v (uriFmt u) (a ++ fmtUser u).length =
      .ok ((a ++ fmtUser u ++ w).length,
        { v with host := some h, port := if fmtPort u = [] then 0 else u.port }) := by
    have hx : uriFmt u = a ++ fmtUser u ++ (w ++ 47 :: (t ++ fmtStr u.anchor)) := by
      simp only [hfmt, ht, List.append_assoc, List.cons_append]
    rw [hx, hw, uriScanPort_eq ⟨hne, fun c hc => (hh c hc).2⟩ hv, @List.length_append _ _ (h.val ++ fmtPort u)]
  have hscanLocation (v : Uri) (e : Nat) : uriScanLocation v (uriFmt u) (a ++ fmtUser u ++ w).length e =
      .ok ((a ++ fmtUser u ++ w ++ l.val).length, (a ++ fmtUser u ++ w ++ l.val).length,
        { v with location := some l }) := by
    have hx : uriFmt u = a ++ fmtUser u ++ w ++ (l.val ++ fmtStr u.anchor) := by simp only [hfmt, List.append_assoc]
    rw [hx, uriScanLocation_eq ⟨hslash, hl⟩ (fmtStr_head hu.anchor), @List.length_append _ _ l.val]
  have hscanAnchor (v : Uri) : uriScanAnchor v (uriFmt u) (a ++ fmtUser u ++ w ++ l.val).length
      (a ++ fmtUser u ++ w ++ l.val).length = ((uriFmt u).length, { v with anchor := u.anchor }) := by
    have hx : uriFmt u = a ++ fmtUser u ++ w ++ l.val ++ fmtStr u.anchor := by simp only [hfmt, List.append_assoc]
    rw [hx, uriScanAnchor_eq hu.anchor, @List.length_append _ _ (fmtStr u.anchor)]
  have hscanDefault := uriScanDefault_eq hu.port
  rw [hproto, hhost, hloc] at hscanDefault
  have hpos : a.length ≠ 0 := by simp [ha, protoEnd]
  rw [uriScan, hscanProto]
  simp only [hend, hpos, false_and, not_false_eq_true, if_true]
  simp only [hscanUser, hscanPort, and_self, ok_bind, hscanLocation, hscanAnchor]
  exact congrArg (fun v => Except.ok ((uriFmt u).length, v)) hscanDefault

/-- `ftp://me:x@host:21/a#b` -/
def ftpUri : Uri where
  proto := some ⟨[102, 116, 112], by decide⟩
  host := some ⟨[104, 111, 115, 116], by decide⟩
  port := 21
  location := some ⟨[47, 97], by decide⟩
  username := some ⟨[109, 101], by decide⟩
  password := some ⟨[120], by decide⟩
  anchor := some ⟨[35, 98], by decide⟩

theorem uriScan_uriFmt_ftp : uriScan uriInit (uriFmt ftpUri) = .ok (22, ftpUri) :=
  uriScan_uriFmt {
    proto := ⟨_, rfl, by decide⟩
    host := ⟨_, rfl, by decide, by decide⟩
    username := by decide
    password := by decide
    port := by decide
    location := ⟨_, rfl, by decide, by decide⟩
    anchor := by
      rintro a ⟨⟩
      exact ⟨[98], rfl, by decide⟩ }

end Dirlist
