import Dirlist.Bsdiff.Defs

/-! What a patch means, as a function of the old file, the records and the two other streams, and that
`bsdiff_read` writes just that. The position in the old file is kept modulo `2 ^ 64` and may leave the file between
two records. -/

namespace Dirlist
open Run

/-! ## Patches -/

/-- A number of the patch file, by sign and magnitude. Zero has both signs. -/
structure SignMagnitude where
  negative : Bool
  magnitude : Nat
  fits : magnitude < 2 ^ 63
deriving DecidableEq

/-- `uint64_pack`, with `k` bytes. -/
def uint64Pack : Nat → Nat → Bytes
  | 0, _ => []
  | k + 1, u => UInt8.ofNat (u % 256) :: uint64Pack k (u / 256)

namespace SignMagnitude

def value (i : SignMagnitude) : Int := if i.negative then -i.magnitude else i.magnitude

def bytes (i : SignMagnitude) : Bytes := uint64Pack 8 (if i.negative then 2 ^ 63 + i.magnitude else i.magnitude)

end SignMagnitude

/-- A control record of the patch file. -/
structure Control where
  addLen : SignMagnitude
  extraLen : SignMagnitude
  seekOff : SignMagnitude
deriving DecidableEq

namespace Control

def bytes (c : Control) : Bytes := c.addLen.bytes ++ c.extraLen.bytes ++ c.seekOff.bytes

/-- The lengths are not negative. -/
def Sized (c : Control) : Prop := 0 ≤ c.addLen.value ∧ 0 ≤ c.extraLen.value

instance (c : Control) : Decidable c.Sized := inferInstanceAs (Decidable (_ ∧ _))

/-- How many old bytes, and as many difference bytes, are added. -/
def add (c : Control) : Nat := c.addLen.value.toNat

def extra (c : Control) : Nat := c.extraLen.value.toNat

end Control

/-- Every range of old bytes lies inside the old file, which is read from `pos` on. -/
def Inside (file : Bytes) : Int → List Control → Prop
  | _, [] => True
  | pos, c :: cs =>
    (0 < c.add → 0 ≤ pos ∧ pos + c.add ≤ file.length) ∧ Inside file (pos + c.add + c.seekOff.value) cs

/-- The new file. -/
def patched (file : Bytes) : Int → List Control → Bytes → Bytes → Bytes
  | _, [], _, _ => []
  | pos, c :: cs, diff, extra =>
    List.zipWith (· + ·) ((file.drop pos.toNat).take c.add) (diff.take c.add) ++ extra.take c.extra ++
      patched file (pos + c.add + c.seekOff.value) cs (diff.drop c.add) (extra.drop c.extra)

variable {sched : Schedule} {m : Bool} {b : Buffer} {xs rest : Bytes} {n k u : Nat}

/-! ## Numbers -/

theorem uint64Unpack_pack (hu : u < 256 ^ k) : uint64Unpack (uint64Pack k u) = u := by
  induction k generalizing u with
  | zero =>
    rw [Nat.pow_zero] at hu
    obtain rfl : u = 0 := by omega
    rfl
  | succ k ih =>
    have hdiv : u / 256 < 256 ^ k := Nat.div_lt_of_lt_mul (by rwa [Nat.pow_succ, Nat.mul_comm] at hu)
    rw [uint64Pack, uint64Unpack, ih hdiv, UInt8.toNat_ofNat_of_lt' (Nat.mod_lt u (by decide))]
    exact Nat.mod_add_div u 256

theorem length_uint64Pack (k u : Nat) : (uint64Pack k u).length = k := by
  induction k generalizing u with
  | zero => rfl
  | succ k ih => rw [uint64Pack, List.length_cons, ih]

theorem SignMagnitude.length_bytes (i : SignMagnitude) : i.bytes.length = 8 := length_uint64Pack 8 _

/-! ## Getting bytes -/

theorem Delivers.pop (h : Delivers m b rest) (hk : k ≤ b.window.length) :
    b.pop k = .ok (rest.take k, { b with window := b.window.drop k, p := b.p + k }) ∧
      Delivers m { b with window := b.window.drop k, p := b.p + k } (rest.drop k) := by
  have hroom := h.room
  refine ⟨?_, ?_, ?_, h.size, h.kind, h.whole⟩
  · rw [Buffer.pop, ← h.unread, List.take_append_of_le_length hk]
  · rw [← h.unread, List.drop_append_of_le_length hk]
  · simp only [List.length_drop]
    omega

theorem Delivers.returns_get (sched : Schedule) (h : Delivers m b (xs ++ rest)) (acc : Bytes) :
    ∃ b', Returns (fun n => loop (getRound (Buffer.feed sched) Buffer.pop) n (xs.length, acc, b))
        ((acc ++ xs).length, acc ++ xs, b') ∧ Delivers m b' rest := by
  induction hn : xs.length using Nat.strongRecOn generalizing xs acc b with
  | _ k ih =>
    by_cases hnil : xs = []
    · subst hnil
      have hround (n : Nat) : getRound (Buffer.feed sched) Buffer.pop n (k, acc, b) =
          .ok (.inr (acc.length, acc, b)) := by
        rw [getRound, if_pos (show k = 0 from hn.symm)]
      rw [List.append_nil]
      exact ⟨b, returns_loop_done ((returns_ok _).congr hround), h⟩
    · have hpos := List.length_pos_of_ne_nil hnil
      obtain ⟨b₁, hfeed, h₁, hend⟩ := h.feed sched
      have hwindow : 0 < b₁.window.length :=
        List.length_pos_of_ne_nil fun hw => hnil (List.append_eq_nil_iff.mp (hend hw)).1
      obtain ⟨blen, hblen⟩ : ∃ blen, blen = min b₁.window.length k := ⟨_, rfl⟩
      obtain ⟨hpop, h₂⟩ := h₁.pop (k := blen) (by omega)
      rw [List.take_append_of_le_length (by omega)] at hpop
      rw [List.drop_append_of_le_length (by omega)] at h₂
      have hround (n : Nat) : getRound (Buffer.feed sched) Buffer.pop n (k, acc, b) = .ok (.inl (k - blen,
          acc ++ xs.take blen, { b₁ with window := b₁.window.drop blen, p := b₁.p + blen })) := by
        rw [getRound, if_neg (by omega), Buffer.feed, hfeed]
        simp only [Int.toNat_natCast, ← hblen, hpop, ok_bind]
        rw [if_neg (by omega), if_neg (by omega)]
      obtain ⟨b', hrun, h'⟩ := ih (k - blen) (by omega) h₂ (acc ++ xs.take blen) (by rw [List.length_drop, hn])
      rw [List.append_assoc, List.take_append_drop] at hrun
      exact ⟨b', returns_loop_next ((returns_ok _).congr hround) hrun, h'⟩

/-- A buffer gives as many bytes as are asked for, in whatever pieces it finds them. -/
theorem Delivers.get (sched : Schedule) (h : Delivers m b (xs ++ rest)) (hlen : xs.length < 2 ^ 63) :
    ∃ b', Returns (fun n => b.get sched n xs.length) (xs.length, xs, b') ∧ Delivers m b' rest := by
  obtain ⟨b', hrun, h'⟩ := h.returns_get sched []
  refine ⟨b', hrun.congr fun n => ?_, h'⟩
  rw [Buffer.get, bufferGet, if_neg (by omega)]

/-- At the end of a stream nothing comes. -/
theorem Delivers.get_end (sched : Schedule) (h : Delivers m b []) (hk : 0 < k) (hlen : k < 2 ^ 63) :
    ∃ b', Returns (fun n => b.get sched n k) (0, [], b') := by
  obtain ⟨b₁, hfeed, h₁, -⟩ := h.feed sched
  have hwindow : b₁.window.length = 0 := Nat.le_zero.mp h₁.window_le
  have hround (n : Nat) : getRound (Buffer.feed sched) Buffer.pop n (k, [], b) = .ok (.inr (0, [], b₁)) := by
    rw [getRound, if_neg (by omega), Buffer.feed, hfeed, hwindow]
    rfl
  refine ⟨b₁, (returns_loop_done ((returns_ok _).congr hround)).congr fun n => ?_⟩
  rw [Buffer.get, bufferGet, if_neg (by omega)]

/-- Inside the file, the bytes from the position on. -/
theorem Mapped.returns_get {o : Mapped} (hn : o.n = o.x.length) (hlt : o.n < 2 ^ 63) (hk : 0 < k) (hp : o.p + k ≤ o.n) :
    Returns (fun n => o.get n k) (k, (o.x.drop o.p).take k, { o with p := o.p + k }) := by
  have hfeed : o.feed = (((o.n - o.p : Nat) : Int), o) := by
    have hcast : (o.n : Int) - o.p = (o.n - o.p : Nat) := by omega
    simp only [Mapped.feed]
    rw [if_neg (by omega), hcast, Int.bmod_eq_of_le (by omega) (by omega)]
  have hpop : o.pop k = .ok ((o.x.drop o.p).take k, { o with p := o.p + k }) := by
    rw [Mapped.pop, readCells, if_pos (by omega)]
    rfl
  have hlen : ((o.x.drop o.p).take k).length = k := by
    rw [List.length_take, List.length_drop]
    omega
  have hmin : min (o.n - o.p) k = k := by omega
  have hround (n : Nat) : getRound Mapped.feed Mapped.pop n (k, [], o) =
      .ok (.inl (0, (o.x.drop o.p).take k, { o with p := o.p + k })) := by
    rw [getRound, if_neg (by omega), hfeed]
    simp only [Int.toNat_natCast, hmin, hpop, ok_bind, Nat.sub_self, List.nil_append]
    rw [if_neg (by omega), if_neg (by omega)]
  have hlast (n : Nat) : getRound Mapped.feed Mapped.pop n (0, (o.x.drop o.p).take k, { o with p := o.p + k }) =
      .ok (.inr (k, (o.x.drop o.p).take k, { o with p := o.p + k })) := by
    rw [getRound, if_pos rfl, hlen]
  refine (returns_loop_next ((returns_ok _).congr hround) (returns_loop_done ((returns_ok _).congr hlast))).congr
    fun n => ?_
  rw [Mapped.get, bufferGet, if_neg (by omega)]

/-! ## Reading records -/

theorem SignMagnitude.unpack (i : SignMagnitude) :
    uint64Unpack i.bytes = if i.negative then 2 ^ 63 + i.magnitude else i.magnitude := by
  have hfits := i.fits
  refine uint64Unpack_pack ?_
  split_ifs <;> omega

theorem Delivers.getint64 (sched : Schedule) {i : SignMagnitude} (h : Delivers m b (i.bytes ++ rest)) :
    ∃ b', Returns (fun n => bufferGetint64 sched n b) (some i.value, b') ∧ Delivers m b' rest := by
  have hfits := i.fits
  obtain ⟨b', hget, h'⟩ := h.get sched (by rw [i.length_bytes]; decide)
  rw [i.length_bytes] at hget
  refine ⟨b', hget.bind (returns_const ?_), h'⟩
  simp only [i.unpack, SignMagnitude.value]
  cases i.negative with
  | true =>
    have hmod : (2 ^ 63 + i.magnitude) % 2 ^ 63 = i.magnitude := by omega
    simp only [if_true, if_pos (Nat.le_add_right (2 ^ 63) i.magnitude), hmod]
    rfl
  | false =>
    have hmod : i.magnitude % 2 ^ 63 = i.magnitude := Nat.mod_eq_of_lt hfits
    simp only [Bool.false_eq_true, if_false, if_neg (Nat.not_le.mpr hfits), hmod]
    rfl

theorem Delivers.readCtrl (sched : Schedule) {c : Control} (h : Delivers m b (c.bytes ++ rest)) :
    ∃ b', Returns (fun n => bsdiffReadCtrl sched n b)
        (some ⟨c.addLen.value, c.extraLen.value, c.seekOff.value⟩, b') ∧ Delivers m b' rest := by
  rw [Control.bytes, List.append_assoc, List.append_assoc] at h
  obtain ⟨b₁, hadd, h₁⟩ := h.getint64 sched
  obtain ⟨b₂, hextra, h₂⟩ := h₁.getint64 sched
  obtain ⟨b₃, hseek, h₃⟩ := h₂.getint64 sched
  exact ⟨b₃, hadd.bind (hextra.bind (hseek.bind (returns_ok _))), h₃⟩

theorem Delivers.readCtrl_end (sched : Schedule) (h : Delivers m b []) :
    ∃ b', Returns (fun n => bsdiffReadCtrl sched n b) (none, b') := by
  obtain ⟨b', hget⟩ := h.get_end sched (k := 8) (by decide) (by decide)
  have hnone : Returns (fun n => bufferGetint64 sched n b) (none, b') := hget.bind (returns_ok _)
  exact ⟨b', hnone.bind (returns_ok _)⟩

/-! ## The loop -/

theorem Sink.put_content (b : Sink) (x : Bytes) : (b.put x).written ++ (b.put x).x = b.written ++ b.x ++ x := by
  rw [Sink.put]
  by_cases hfull : b.a - b.x.length < x.length
  · by_cases hlong : b.flush.a < x.length
    · rw [if_pos hfull, if_pos hlong]
      simp [Sink.flush]
    · rw [if_pos hfull, if_neg hlong]
      simp [Sink.flush]
  · rw [if_neg hfull, List.append_assoc]

/-- Where the loop stands: what the streams still hold, the position in the old file, and what went out. -/
structure Patching (file : Bytes) (s : Bsdiff) (pos : Int) (ctrl diff extra out : Bytes) : Prop where
  ctrl : ∃ m, Delivers m s.ctrl ctrl
  data : ∃ m, Delivers m s.data diff
  extra : ∃ m, Delivers m s.extra extra
  old : s.old = some { x := file, p := (pos % 2 ^ 64).toNat, n := file.length }
  new : ∃ new, s.new = some new ∧ new.written ++ new.x = out

variable {file ctrl diff extra out ds es : Bytes} {s : Bsdiff} {pos : Int} {c : Control} {cs : List Control}

theorem Patching.add (sched : Schedule) (h : Patching file s pos ctrl (ds ++ diff) extra out)
    (hfile : file.length < 2 ^ 63) (hin : 0 < ds.length → 0 ≤ pos ∧ pos + ds.length ≤ file.length) :
    ∃ s', Returns (fun n => bsdiffAdd sched n s ds.length) (true, s') ∧
      Patching file s' (pos + ds.length) ctrl diff extra
      (out ++ List.zipWith (· + ·) ((file.drop pos.toNat).take ds.length) ds) := by
  by_cases hnil : ds = []
  · subst hnil
    exact ⟨s, returns_const rfl, by simpa using h⟩
  · have hpos := List.length_pos_of_ne_nil hnil
    obtain ⟨hlow, hhigh⟩ := hin hpos
    obtain ⟨m, hdata⟩ := h.data
    obtain ⟨new, hnew, hout⟩ := h.new
    have hp : (pos % 2 ^ 64).toNat = pos.toNat := by omega
    have hp' : ((pos + ds.length) % 2 ^ 64).toNat = pos.toNat + ds.length := by omega
    have hold := h.old
    rw [hp] at hold
    obtain ⟨data, ⟨M, hget⟩, hdata'⟩ := hdata.get sched (by omega)
    obtain ⟨N, hsrc⟩ := @Mapped.returns_get ds.length { x := file, p := pos.toNat, n := file.length } rfl hfile hpos
      (by simp only; omega)
    refine ⟨{ s with
        data := data
        r := (s.r + ds.length).bmod (2 ^ 64)
        w := (s.w + ds.length).bmod (2 ^ 64)
        old := some { x := file, p := pos.toNat + ds.length, n := file.length }
        new := some (new.put (List.zipWith (· + ·) ds ((file.drop pos.toNat).take ds.length))) },
      ⟨max M N, fun n hn => ?_⟩, h.ctrl, ⟨m, hdata'⟩, h.extra, ?_, _, rfl, ?_⟩
    · have hget' : s.data.get sched n ds.length = _ := hget n (by omega)
      have hsrc' : Mapped.get n _ ds.length = _ := hsrc n (by omega)
      simp only [bsdiffAdd, Int.toNat_natCast]
      rw [if_neg (by omega), if_neg (by omega), hget', ok_bind]
      simp only [hold, hnew, hsrc', ok_bind, ne_eq, not_true_eq_false, if_false, Option.map_some]
    · simp only [hp']
    · rw [Sink.put_content, hout, List.zipWith_comm_of_comm (fun a b => UInt8.add_comm a b)]

theorem Patching.put (sched : Schedule) (h : Patching file s pos ctrl diff (es ++ extra) out)
    (hlen : es.length < 2 ^ 63) :
    ∃ s', Returns (fun n => bsdiffExtra sched n s es.length) (true, s') ∧
      Patching file s' pos ctrl diff extra (out ++ es) := by
  by_cases hnil : es = []
  · subst hnil
    exact ⟨s, returns_const rfl, by simpa using h⟩
  · have hpos := List.length_pos_of_ne_nil hnil
    obtain ⟨m, hextra⟩ := h.extra
    obtain ⟨new, hnew, hout⟩ := h.new
    obtain ⟨left, ⟨N, hget⟩, hleft⟩ := hextra.get sched hlen
    refine ⟨{ s with
        extra := left
        new := some (new.put es)
        w := (s.w + es.length).bmod (2 ^ 64) }, ⟨N, fun n hn => ?_⟩, h.ctrl, h.data, ⟨m, hleft⟩, h.old, _, rfl, ?_⟩
    · have hget' : s.extra.get sched n es.length = _ := hget n hn
      simp only [bsdiffExtra, Int.toNat_natCast]
      rw [if_neg (by omega), if_neg (by omega), hget', ok_bind]
      simp only [hnew, ne_eq, not_true_eq_false, if_false, Option.map_some]
    · rw [Sink.put_content, hout]

theorem SignMagnitude.toNat_lt (i : SignMagnitude) : i.value.toNat < 2 ^ 63 := by
  have hfits := i.fits
  rw [SignMagnitude.value]
  split_ifs <;> omega

/-- One record. -/
theorem Patching.round (sched : Schedule) (h : Patching file s pos (c.bytes ++ ctrl) (ds ++ diff) (es ++ extra) out)
    (hfile : file.length < 2 ^ 63) (hsized : c.Sized) (hds : ds.length = c.add) (hes : es.length = c.extra)
    (hin : 0 < c.add → 0 ≤ pos ∧ pos + c.add ≤ file.length) :
    ∃ s', Returns (fun n => bsdiffRound sched n s) (.inl s') ∧
      Patching file s' (pos + c.add + c.seekOff.value) ctrl diff extra
        (out ++ List.zipWith (· + ·) ((file.drop pos.toNat).take c.add) ds ++ es) := by
  obtain ⟨m, hctrl⟩ := h.ctrl
  obtain ⟨left, hread, hleft⟩ := hctrl.readCtrl sched
  have h₀ : Patching file { s with ctrl := left } pos ctrl (ds ++ diff) (es ++ extra) out :=
    ⟨⟨m, hleft⟩, h.data, h.extra, h.old, h.new⟩
  have hadd : c.addLen.value = (c.add : Int) := (Int.toNat_of_nonneg hsized.1).symm
  have hextra : c.extraLen.value = (c.extra : Int) := (Int.toNat_of_nonneg hsized.2).symm
  rw [← hds] at hin hadd ⊢
  rw [← hes] at hextra
  obtain ⟨s₁, hrun₁, h₁⟩ := h₀.add sched hfile hin
  obtain ⟨s₂, hrun₂, h₂⟩ := h₁.put sched (hes ▸ c.extraLen.toNat_lt)
  rw [hadd, hextra] at hread
  refine ⟨_, hread.bind (hrun₁.bind (hrun₂.bind (returns_ok _))), h₂.ctrl, h₂.data, h₂.extra, ?_, h₂.new⟩
  have hseek : (((pos + ds.length) % 2 ^ 64).toNat + c.seekOff.value) % 2 ^ 64 =
      (pos + ds.length + c.seekOff.value) % 2 ^ 64 := by omega
  rw [h₂.old, Option.map_some, Mapped.seek]
  simp only [hseek]

theorem Patching.run (sched : Schedule) (h : Patching file s pos (cs.flatMap Control.bytes) diff extra out)
    (hfile : file.length < 2 ^ 63) (hsized : ∀ c ∈ cs, c.Sized) (hdiff : (cs.map Control.add).sum ≤ diff.length)
    (hextra : (cs.map Control.extra).sum ≤ extra.length) (hin : Inside file pos cs) :
    ∃ s' new, Returns (fun n => loop (bsdiffRound sched) n s) s' ∧ s'.old.isSome ∧ s'.new = some new ∧
      new.written ++ new.x = out ++ patched file pos cs diff extra := by
  induction cs generalizing s pos diff extra out with
  | nil =>
    obtain ⟨m, hctrl⟩ := h.ctrl
    obtain ⟨left, hread⟩ := Delivers.readCtrl_end sched hctrl
    obtain ⟨new, hnew, hout⟩ := h.new
    have hround : Returns (fun n => bsdiffRound sched n s) (.inr { s with ctrl := left }) := hread.bind (returns_ok _)
    refine ⟨_, new, returns_loop_done hround, ?_, hnew, ?_⟩
    · simp only [h.old, Option.isSome_some]
    · rw [hout, patched, List.append_nil]
  | cons c cs ih =>
    rw [List.map_cons, List.sum_cons] at hdiff hextra
    rw [List.flatMap_cons, ← List.take_append_drop c.add diff, ← List.take_append_drop c.extra extra] at h
    obtain ⟨s₁, hround, h₁⟩ := h.round sched hfile (hsized c List.mem_cons_self)
      (by rw [List.length_take]; omega) (by rw [List.length_take]; omega) hin.1
    obtain ⟨s', new, hrun, hold, hnew, hout⟩ := ih h₁ (fun d hd => hsized d (List.mem_cons_of_mem _ hd))
      (by rw [List.length_drop]; omega) (by rw [List.length_drop]; omega) hin.2
    refine ⟨s', new, returns_loop_next hround hrun, hold, hnew, ?_⟩
    rw [hout, patched, List.append_assoc, List.append_assoc, List.append_assoc]

/-- What `bsdiff_read` writes behind what was in the buffer before is the patched file. -/
theorem bsdiffRead_eq (sched : Schedule) {mc md me : Bool} {bctrl bdata bextra : Buffer} {new : Sink}
    (hctrl : Delivers mc bctrl (cs.flatMap Control.bytes)) (hdata : Delivers md bdata diff)
    (hextra : Delivers me bextra extra) (hsized : ∀ c ∈ cs, c.Sized) (hfile : file.length < 2 ^ 63)
    (hin : Inside file 0 cs) (hd : (cs.map Control.add).sum ≤ diff.length)
    (he : (cs.map Control.extra).sum ≤ extra.length) :
    ∃ s out, Returns (fun n => bsdiffRead sched n bctrl bdata bextra (some (Mapped.read file)) (some new)) s ∧
      s.new = some out ∧ out.x = [] ∧ out.written = new.written ++ new.x ++ patched file 0 cs diff extra := by
  have hstart : Patching file ⟨bctrl, bdata, bextra, some (Mapped.read file), some new, 0, 0⟩ 0
      (cs.flatMap Control.bytes) diff extra (new.written ++ new.x) :=
    ⟨⟨mc, hctrl⟩, ⟨md, hdata⟩, ⟨me, hextra⟩, rfl, new, rfl, rfl⟩
  obtain ⟨s, out, hrun, hold, hnew, hout⟩ := hstart.run sched hfile hsized hd he hin
  obtain ⟨old, hold⟩ := Option.isSome_iff_exists.mp hold
  refine ⟨{ s with new := some out.flush }, out.flush, hrun.bind (returns_const ?_), rfl, rfl, ?_⟩
  · simp only [hold, hnew, Option.map_some]
  · exact hout

/-- One old byte is changed, and the position leaves the file backwards before a byte is put in. -/
def backwards : List Control :=
  [⟨⟨false, 1, by decide⟩, ⟨true, 0, by decide⟩, ⟨true, 7, by decide⟩⟩,
    ⟨⟨false, 0, by decide⟩, ⟨false, 1, by decide⟩, ⟨false, 0, by decide⟩⟩]

theorem bsdiffRead_eq_backwards : ∃ s out, Returns (fun n => bsdiffRead (fun _ => 3) n
      (bufferWhole (backwards.flatMap Control.bytes)) (bufferInit 1024 [255]) (bufferInit 1024 [9])
      (some (Mapped.read [2])) (some ⟨4, [], []⟩)) s ∧ s.new = some out ∧ out.x = [] ∧
      out.written = ([] ++ [] : Bytes) ++ patched [2] 0 backwards [255] [9] :=
  bsdiffRead_eq (fun _ => 3) (delivers_whole _) (delivers_init (by decide) _) (delivers_init (by decide) _)
    (by decide) (by decide) ⟨by decide, by decide, trivial⟩ (by decide) (by decide)

end Dirlist
