import Dirlist.Json.Total
import Dirlist.Xml.Tags

/-! The names under which `xml_read_callback` stores attributes. They depend on the text alone, whatever the
callback makes of the reader, and each of them has to fit into a tuple. -/

namespace Dirlist
open Run

/-- The names of the attributes in the tags of a text, as the reader comes to them. -/
def xmlKeysFrom : Nat → Bytes → List Bytes
  | 0, _ => []
  | n + 1, s =>
    match (s.dropWhile (· ≠ 60)).tail with
    | [] => []
    | c :: u =>
      if c = 33 then xmlKeysFrom n (u.dropWhile (· ≠ 62)).tail
      else
        let (t, v) := tagAt (if c = 47 then u else c :: u)
        t.attrs.map Prod.fst ++ if t.finish = .null then [] else xmlKeysFrom n (afterSpace v)

def xmlKeys (text : Bytes) : List Bytes := xmlKeysFrom (text.length + 1) text

/-- A callback that returns 1 and does not take the map of attributes away before the element. -/
def KeepsMap {σ : Type} (fn : XmlCallback σ) : Prop :=
  ∀ r e, ∃ name r', fn r e = .ok (true, name, r') ∧ (e.id ≠ .element → r.attrmap.isSome → r'.attrmap.isSome)

variable {s u : Bytes} {c : UInt8} {m n : Nat}

/-! ## The names -/

theorem markup_lt (h : (s.dropWhile (· ≠ 60)).tail = c :: u) : (c :: u).length < s.length := by
  have hle := List.length_dropWhile_le (· ≠ 60) s
  have hlen := congrArg List.length h
  rw [List.length_tail, List.length_cons] at hlen
  rw [List.length_cons]
  omega

theorem tagText_le (c : UInt8) (u : Bytes) :
    (afterSpace (tagAt (if c = 47 then u else c :: u)).2).length ≤ (c :: u).length := by
  refine (afterSpace_le _).trans ((tagAt_le _).trans ?_)
  split
  · exact Nat.le_succ _
  · exact Nat.le_refl _

/-- Rounds beyond the length of the text make no difference. -/
theorem xmlKeysFrom_eq (hm : s.length < m) (hn : s.length < n) : xmlKeysFrom m s = xmlKeysFrom n s := by
  induction m generalizing n s with
  | zero => exact absurd hm (Nat.not_lt_zero _)
  | succ m ih =>
    obtain ⟨n, rfl⟩ : ∃ k, n = k + 1 := ⟨n - 1, by omega⟩
    rw [xmlKeysFrom, xmlKeysFrom]
    cases hs : (s.dropWhile (· ≠ 60)).tail with
    | nil => rfl
    | cons c u =>
      have hlt := markup_lt hs
      have hbang : (u.dropWhile (· ≠ 62)).tail.length < s.length :=
        Nat.lt_of_le_of_lt ((tail_dropWhile_le _ u).trans (Nat.le_succ _)) hlt
      have htag := Nat.lt_of_le_of_lt (tagText_le c u) hlt
      have hfew {v : Bytes} (hv : v.length < s.length) : xmlKeysFrom m v = xmlKeysFrom n v :=
        ih (by omega) (by omega)
      dsimp only
      rw [hfew hbang, hfew htag]

theorem xmlKeys_eq (h : s.length < n) : xmlKeysFrom n s = xmlKeys s := xmlKeysFrom_eq h (Nat.lt_succ_self _)

theorem xmlKeys_nil (h : (s.dropWhile (· ≠ 60)).tail = []) : xmlKeys s = [] := by
  rw [xmlKeys, xmlKeysFrom, h]

theorem xmlKeys_bang (h : (s.dropWhile (· ≠ 60)).tail = 33 :: u) :
    xmlKeys s = xmlKeys (u.dropWhile (· ≠ 62)).tail := by
  have hlt := Nat.lt_of_le_of_lt ((tail_dropWhile_le (· ≠ 62) u).trans (Nat.le_succ _)) (markup_lt h)
  rw [xmlKeys, xmlKeysFrom, h]
  dsimp only
  rw [if_pos rfl, xmlKeys_eq hlt]

theorem xmlKeys_tag (h : (s.dropWhile (· ≠ 60)).tail = c :: u) (hc : c ≠ 33) :
    xmlKeys s = (tagAt (if c = 47 then u else c :: u)).1.attrs.map Prod.fst ++
      if (tagAt (if c = 47 then u else c :: u)).1.finish = .null then []
      else xmlKeys (afterSpace (tagAt (if c = 47 then u else c :: u)).2) := by
  have hlt := Nat.lt_of_le_of_lt (tagText_le c u) (markup_lt h)
  rw [xmlKeys, xmlKeysFrom, h]
  dsimp only
  rw [if_neg hc, xmlKeys_eq hlt]

theorem xmlKeys_last (h : s.length ≤ 1) : xmlKeys s = [] := by
  refine xmlKeys_nil (List.eq_nil_of_length_eq_zero ?_)
  have hle := List.length_dropWhile_le (· ≠ 60) s
  rw [List.length_tail]
  omega

/-- What stands in front of the next tag has no names. -/
theorem xmlKeys_dropWhile (s : Bytes) : xmlKeys (s.dropWhile (· ≠ 60)) = xmlKeys s := by
  have hdrop : (s.dropWhile (· ≠ 60)).dropWhile (· ≠ 60) = s.dropWhile (· ≠ 60) := List.dropWhile_idempotent _ s
  cases hs : (s.dropWhile (· ≠ 60)).tail with
  | nil => rw [xmlKeys_nil hs, xmlKeys_nil (hdrop.symm ▸ hs)]
  | cons c u =>
    have hs' : ((s.dropWhile (· ≠ 60)).dropWhile (· ≠ 60)).tail = c :: u := by rw [hdrop, hs]
    by_cases hc : c = 33
    · subst hc
      rw [xmlKeys_bang hs, xmlKeys_bang hs']
    · rw [xmlKeys_tag hs hc, xmlKeys_tag hs' hc]

/-! ## One round -/

section Rounds

variable {σ : Type} {fn : XmlCallback σ} {r : XmlReader σ}

namespace XmlPhase

def reader {β : Type} : XmlPhase β σ → XmlReader σ
  | .tag r _ => r
  | .test r _ _ => r

def rest : XmlPhase Bytes σ → Bytes
  | .tag _ s => s
  | .test _ _ s => s

end XmlPhase

/-- A round goes on with keys that are short if and only if `short`, or shows whether it holds. -/
inductive KeepsKeys (short : Prop) : Exec (XmlPhase Bytes σ ⊕ XmlEnd × XmlReader σ) → Prop
  | next {q : XmlPhase Bytes σ} : q.reader.attrmap.isSome → (ShortKeys (xmlKeys q.rest) ↔ short) →
      KeepsKeys short (.ok (.inl q))
  | done {x : XmlEnd × XmlReader σ} : short → KeepsKeys short (.ok (.inr x))
  | fault : ¬short → KeepsKeys short (.error .bounds)

theorem KeepsMap.goesOn (hfn : KeepsMap fn) : GoesOn fn := by
  intro r e x hx
  obtain ⟨name, r', hcall, -⟩ := hfn r e
  rw [hcall] at hx
  cases hx
  rfl

theorem KeepsMap.ne_fuel (hfn : KeepsMap fn) (r : XmlReader σ) (e : XmlEvent) : fn r e ≠ .error .fuel := by
  obtain ⟨name, r', hcall, -⟩ := hfn r e
  rw [hcall]
  simp

/-- The attributes of a tag are stored if all names fit. -/
theorem readAttrs_keys (hfn : KeepsMap fn) (avs : List (Bytes × Bytes)) (hmap : r.attrmap.isSome) :
    (ShortKeys (avs.map Prod.fst) → ∃ r', readAttrs fn avs r = .ok r' ∧ r'.attrmap.isSome) ∧
      (¬ShortKeys (avs.map Prod.fst) → readAttrs fn avs r = .error .bounds) := by
  induction avs generalizing r with
  | nil => exact ⟨fun _ => ⟨r, rfl, hmap⟩, fun h => absurd shortKeys_nil h⟩
  | cons av avs ih =>
    obtain ⟨attr, val⟩ := av
    obtain ⟨d, hd⟩ := Option.isSome_iff_exists.mp hmap
    rw [List.map_cons, shortKeys_cons, readAttrs, hd]
    by_cases hlen : attr.length < maxSizeKey
    · obtain ⟨d', hset⟩ : ∃ d', xmlAttrSet (some d) attr val = .ok d' := by
        rw [xmlAttrSet]
        split_ifs <;> exact ⟨_, rfl⟩
      obtain ⟨name, r', hcall, hkeep⟩ := hfn { r with attrmap := some d' } ⟨.attribute, some attr, some val, none⟩
      obtain ⟨hshort, hlong⟩ := ih (hkeep (by simp) rfl)
      rw [hset, ok_bind, hcall, ok_bind]
      exact ⟨fun h => hshort h.2, fun h => hlong fun hs => h ⟨hlen, hs⟩⟩
    · have hset : xmlAttrSet (some d) attr val = .error .bounds := by
        have hne : attr ≠ [] := by
          rintro rfl
          exact hlen (by decide)
        rw [xmlAttrSet, if_neg hne, if_neg hlen]
      rw [hset, error_bind]
      exact ⟨fun h => absurd h.1 hlen, fun _ => rfl⟩

/-- The text behind an element has the keys of what follows it. -/
theorem readText_keys (hfn : KeepsMap fn) (tag : Bytes) (u : Bytes) :
    KeepsKeys (ShortKeys (xmlKeys u)) (readText fn r tag u) := by
  cases u with
  | nil =>
    rw [readText, xmlKeys_last (by decide)]
    exact .done shortKeys_nil
  | cons c u =>
    have hskip : textInput.gettok [60] 0 (c :: u) =
        .ok ((c :: u).takeWhile (· ∉ [60]), (c :: u).dropWhile (· ≠ 60)) := by
      rw [text_gettok, notMem_one]
    rw [readText, xmlText]
    by_cases htext : c ≠ 60 ∧ (r.closing || r.selfClosing) = false
    · rw [if_pos htext, hskip, ok_bind]
      dsimp only
      have hsame : ShortKeys (xmlKeys ((c :: u).dropWhile (· ≠ 60))) ↔ ShortKeys (xmlKeys (c :: u)) := by
        rw [xmlKeys_dropWhile]
      by_cases hblank : xmlIsWhitespace ((c :: u).takeWhile (· ∉ [60]))
      · rw [if_pos hblank, ok_bind]
        exact .next rfl hsame
      · obtain ⟨name, r', hcall, -⟩ := hfn r ⟨.text, some ((c :: u).takeWhile (· ∉ [60])), none, none⟩
        rw [if_neg hblank, hcall, ok_bind, ok_bind]
        exact .next rfl hsame
    · rw [if_neg htext, ok_bind]
      exact .next rfl Iff.rfl

/-- A tag has its own keys and those of what follows it. -/
theorem readTag_keys (hfn : KeepsMap fn) (hmap : r.attrmap.isSome) (u : Bytes) :
    KeepsKeys (ShortKeys ((tagAt u).1.attrs.map Prod.fst ++
      if (tagAt u).1.finish = .null then [] else xmlKeys (afterSpace (tagAt u).2))) (readTag fn r u) := by
  obtain ⟨hshort, hlong⟩ := readAttrs_keys hfn (tagAt u).1.attrs hmap
  rw [shortKeys_append, readTag]
  by_cases hkeys : ShortKeys ((tagAt u).1.attrs.map Prod.fst)
  · obtain ⟨r', hattrs, -⟩ := hshort hkeys
    rw [hattrs, ok_bind]
    cases (tagAt u).1.finish with
    | null => exact .done ⟨hkeys, shortKeys_nil⟩
    | ended =>
      dsimp only
      generalize (if (tagAt u).1.slash then { r' with selfClosing := true, closing := false } else r') = r₁
      obtain ⟨name, r₂, hcall, -⟩ := hfn r₁ ⟨.element, some (tagAt u).1.name, none, r₁.attrmap⟩
      rw [hcall, ok_bind, if_neg (by decide), and_iff_right hkeys]
      exact readText_keys hfn name _
  · rw [hlong hkeys, error_bind]
    exact .fault fun h => hkeys h.1

theorem readRound_keys (hfn : KeepsMap fn) (q : XmlPhase Bytes σ) (hmap : q.reader.attrmap.isSome) :
    KeepsKeys (ShortKeys (xmlKeys q.rest)) (readRound fn q) := by
  cases q with
  | test r tag s =>
    have hround : readRound fn (.test r tag s) = if s.length ≤ 1 then .ok (.inr (.ended, r)) else
        if xmlIsWhitespace tag then .ok (.inl (.tag r s)) else
          fn r ⟨.text, none, some tag, none⟩ >>= fun x =>
            if x.1 then .ok (.inl (.tag x.2.2 s)) else .ok (.inr (.ended, x.2.2)) := rfl
    rw [hround]
    by_cases hone : s.length ≤ 1
    · rw [if_pos hone]
      apply KeepsKeys.done
      rw [XmlPhase.rest, xmlKeys_last hone]
      exact shortKeys_nil
    · rw [if_neg hone]
      by_cases hblank : xmlIsWhitespace tag
      · rw [if_pos hblank]
        exact .next hmap Iff.rfl
      · obtain ⟨name, r', hcall, hkeep⟩ := hfn r ⟨.text, none, some tag, none⟩
        rw [if_neg hblank, hcall, ok_bind, if_pos rfl]
        exact .next (hkeep (by simp) hmap) Iff.rfl
  | tag r s =>
    rw [readRound, XmlPhase.rest]
    by_cases hlt : 60 ∈ s
    · rw [if_pos hlt]
      cases hs : (s.dropWhile (· ≠ 60)).tail with
      | nil =>
        rw [readMarkup, xmlKeys_nil hs]
        exact .done shortKeys_nil
      | cons c u =>
        rw [readMarkup]
        by_cases hbang : c = 33
        · subst hbang
          rw [if_neg (by decide), if_neg (by decide), if_pos rfl, xmlKeys_bang hs]
          by_cases hend : 62 ∈ u
          · rw [if_pos hend]
            exact .next hmap Iff.rfl
          · have hnil : u.dropWhile (· ≠ 62) = [] := (dropWhile_ne_nil 62 u).mpr hend
            rw [if_neg hend, hnil, xmlKeys_last (by decide)]
            exact .done shortKeys_nil
        · rw [xmlKeys_tag hs hbang]
          by_cases hslash : c = 47
          · rw [if_pos hslash, if_pos hslash]
            exact readTag_keys (r := ⟨r.attrmap, true, false, r.data⟩) hfn hmap u
          · rw [if_neg hslash, if_neg hslash]
            by_cases hquery : c = 63
            · rw [if_pos hquery]
              exact readTag_keys (r := ⟨r.attrmap, false, true, r.data⟩) hfn hmap (c :: u)
            · rw [if_neg hquery, if_neg hbang]
              exact readTag_keys (r := ⟨r.attrmap, false, false, r.data⟩) hfn hmap (c :: u)
    · have hnil : s.dropWhile (· ≠ 60) = [] := (dropWhile_ne_nil 60 s).mpr hlt
      rw [if_neg hlt, xmlKeys_nil (by rw [hnil, List.tail_nil])]
      exact .done shortKeys_nil

/-! ## Whole readings -/

variable {w : Bool} {p : XmlPhase Buffer σ} {q : XmlPhase Bytes σ}

/-- A round from a buffer is one of the text, or the test stops it while the rest of the text is still to come. -/
theorem coupled_round_or_stops (hfn : KeepsMap fn) (sched : Schedule) (h : SamePhase w p q) :
    Coupled (SameRound w q.left) (fun m => xmlRound (bufferInput sched) fn m p) (fun m => xmlRound textInput fn m q) ∨
      w = false ∧ ∃ x, ∀ m, xmlRound (bufferInput sched) fn m p = .ok (.inr x) := by
  cases h with
  | tag hb => exact .inl (coupled_tagRound hfn.ne_fuel sched _ hb)
  | @test r tag b s hb =>
    cases w with
    | true =>
      refine .inl (coupled_testRound hfn.ne_fuel sched r tag hb fun hle => ?_)
      rwa [← hb.unread, hb.whole rfl, List.append_nil]
    | false =>
      by_cases hle : b.window.length ≤ 1
      · exact .inr ⟨rfl, (.ended, r), fun m => if_pos hle⟩
      · exact .inl (coupled_testRound hfn.ne_fuel sched r tag hb fun h => absurd h hle)

/-- By induction on what is left of the text: keys that are short are all stored. From a buffer that has the text
as a whole every key is met, so that a long one is stored as well. -/
theorem loop_xmlRound_keys (hfn : KeepsMap fn) (sched : Schedule) (h : SamePhase w p q)
    (hmap : q.reader.attrmap.isSome) :
    (ShortKeys (xmlKeys q.rest) → ∃ x, Returns (fun m => loop (xmlRound (bufferInput sched) fn) m p) x) ∧
      (w = true → ¬ShortKeys (xmlKeys q.rest) →
        Settles (fun m => loop (xmlRound (bufferInput sched) fn) m p) (.error .bounds)) := by
  induction hleft : q.left using Nat.strongRecOn generalizing p q with
  | _ k ih =>
    rcases coupled_round_or_stops hfn sched h with ⟨x, y, hx, hy, hxy⟩ | ⟨rfl, x, hx⟩
    · obtain rfl := hy.unique (settles_round hfn.goesOn q)
      have hkeys := readRound_keys hfn q hmap
      generalize readRound fn q = y at hxy hkeys
      cases hkeys with
      | @next q' hmap' hiff =>
        cases hxy with
        | ok hround =>
          cases hround with
          | @next p' q' hnext =>
            obtain ⟨hshort, hlong⟩ := ih _ (hleft ▸ hnext.2) hnext.1 hmap' rfl
            refine ⟨fun hs => ?_, fun hw hl => ?_⟩
            · obtain ⟨z, hz⟩ := hshort (hiff.mpr hs)
              exact ⟨z, returns_loop_next hx hz⟩
            · exact (Settles.bind hx (hlong hw (mt hiff.mp hl))).succ fun n => loop_succ _ n p
      | done hs =>
        cases hxy with
        | ok hround =>
          cases hround with
          | done heq => exact ⟨fun _ => ⟨_, returns_loop_done hx⟩, fun _ hl => absurd hs hl⟩
      | fault hl =>
        cases hxy with
        | error => exact ⟨fun hs => absurd hs hl, fun _ _ => hx.bind_error.succ fun n => loop_succ _ n p⟩
    · exact ⟨fun _ => ⟨x, returns_loop_done ⟨0, fun m _ => hx m⟩⟩, fun hw => absurd hw (by decide)⟩

/-- A text that is in the buffer as a whole is read to the end if and only if its keys fit. -/
theorem xmlReadCallback_keys_iff (hfn : KeepsMap fn) (sched : Schedule) (r : XmlReader σ) (text : Bytes) :
    (∃ x, Returns (fun m => xmlReadCallback (bufferInput sched) fn m r (bufferWhole text)) x) ↔
      ShortKeys (xmlKeys text) := by
  have hsame := SamePhase.tag (r := { r with attrmap := some [] }) (delivers_whole text)
  obtain ⟨hshort, hlong⟩ := loop_xmlRound_keys hfn sched hsame rfl
  refine ⟨fun ⟨x, hx⟩ => ?_, hshort⟩
  by_contra hl
  exact absurd (Settles.unique hx (hlong rfl hl)) (by simp)

/-- Keys that fit are no danger with any other buffer either. -/
theorem xmlReadCallback_keys (hfn : KeepsMap fn) (sched : Schedule) (r : XmlReader σ) {b : Buffer} {text : Bytes}
    (h : Delivers w b text) (hshort : ShortKeys (xmlKeys text)) :
    ∃ x, Returns (fun m => xmlReadCallback (bufferInput sched) fn m r b) x :=
  (loop_xmlRound_keys hfn sched (SamePhase.tag (r := { r with attrmap := some [] }) h) rfl).1 hshort

end Rounds

end Dirlist
