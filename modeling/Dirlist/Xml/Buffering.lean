import Dirlist.Buffer.Stream
import Dirlist.Lib.Couple
import Dirlist.Xml.Defs

/-! The reader on a buffer and on the text that the buffer is to deliver. The two go through the same
events until the buffer is nearly empty, where the reader stops although more of the text is to
come. -/

namespace Dirlist
open Run

/-- The text itself as an input. -/
def textInput : XmlInput Bytes where
  peek _ s := .ok (s.head?, s)
  skipc s := s.tail
  skipUntil charset _ s := .ok (skipped (· ∉ charset) 0 s, (s.dropWhile (· ∉ charset)).tail)
  skipspace _ s :=
    .ok (skipped (· ∈ [32, 9, 11, 13, 10, 0]) 0 s, (s.dropWhile (· ∈ [32, 9, 11, 13, 10, 0])).tail)
  gettok charset _ s := .ok (s.takeWhile (· ∉ charset), s.dropWhile (· ∉ charset))
  ahead s := s.length

/-- The same result, and at most `n` bytes are left. -/
structure Together {α : Type} (w : Bool) (n : Nat) (x : α × Buffer) (y : α × Bytes) : Prop where
  same : x.1 = y.1
  holds : Delivers w x.2 y.2
  le : y.2.length ≤ n

variable {sched : Schedule} {w : Bool} {b : Buffer} {s : Bytes} {n : Nat}

theorem tail_dropWhile_le (p : UInt8 → Bool) (s : Bytes) : (s.dropWhile p).tail.length ≤ s.length := by
  rw [List.length_tail]
  exact (Nat.sub_le _ _).trans (List.length_dropWhile_le _ _)

/-! ## The calls -/

theorem coupled_look (sched : Schedule) (h : Delivers w b s) :
    Coupled (fun x y => y = (s.head?, s) ∧ x.1 = s.head? ∧ Delivers w x.2 s)
      (fun m => (bufferInput sched).peek m b) (fun m => textInput.peek m s) := by
  obtain ⟨b', hr, hb'⟩ := h.peek sched
  exact coupled_returns hr (returns_ok _) ⟨rfl, rfl, hb'⟩

section Calls

variable (sched : Schedule) (h : Delivers w b s) (hn : s.length ≤ n)
include h hn

theorem coupled_peek : Coupled (Together w n) (fun m => (bufferInput sched).peek m b)
    (fun m => textInput.peek m s) := by
  refine (coupled_look sched h).mono ?_
  rintro ⟨c, b'⟩ _ ⟨rfl, rfl, hb'⟩
  exact ⟨rfl, hb', hn⟩

theorem coupled_skipspace :
    Coupled (Together w n) (fun m => (bufferInput sched).skipspace m b) (fun m => textInput.skipspace m s) := by
  obtain ⟨b', hr, hb'⟩ := h.skipPred sched (· ∈ [32, 9, 11, 13, 10, 0]) 0
  exact coupled_returns hr (returns_ok _) ⟨rfl, hb', (tail_dropWhile_le _ s).trans hn⟩

theorem coupled_gettok (charset : Bytes) :
    Coupled (Together w n) (fun m => (bufferInput sched).gettok charset m b)
      (fun m => textInput.gettok charset m s) := by
  obtain ⟨b', hr, hb'⟩ := h.gettok sched charset []
  exact coupled_returns hr (returns_ok _) ⟨rfl, hb', (List.length_dropWhile_le _ s).trans hn⟩

theorem delivers_skipc : Delivers w ((bufferInput sched).skipc b) (textInput.skipc s) ∧
    (textInput.skipc s).length ≤ n := by
  obtain ⟨b', hb', hholds⟩ := h.skipc sched
  constructor
  · show Delivers w (bufferSkipc sched b).2 s.tail
    rw [hb']
    exact hholds
  · show s.tail.length ≤ n
    rw [List.length_tail]
    omega

end Calls

/-- A search that finds its byte leaves less of the text. -/
theorem coupled_skipUntil (sched : Schedule) (h : Delivers w b s) (charset : Bytes) :
    Coupled (fun x y => x.1 = y.1 ∧ Delivers w x.2 y.2 ∧ (y.1 ≠ 0 → y.2.length < s.length))
      (fun m => (bufferInput sched).skipUntil charset m b) (fun m => textInput.skipUntil charset m s) := by
  obtain ⟨b', hr, hb'⟩ := h.skipPred sched (· ∉ charset) 0
  refine coupled_returns hr (returns_ok _) ⟨rfl, hb', fun hne => ?_⟩
  have hfound : s.dropWhile (· ∉ charset) ≠ [] := by
    intro hnil
    simp only [skipped, hnil, if_true, ne_eq, not_true_eq_false] at hne
  have hpos := List.length_pos_iff.mpr hfound
  have hle := List.length_dropWhile_le (· ∉ charset) s
  show (s.dropWhile (· ∉ charset)).tail.length < s.length
  rw [List.length_tail]
  omega

/-! ## The parts of a tag -/

/-- An attribute takes at least the byte it was recognised by. -/
theorem coupled_xmlAttr {c : UInt8} (sched : Schedule) (h : Delivers w b (c :: s)) (hc : isalpha c = true) :
    Coupled (Together w s.length) (fun m => xmlAttr (bufferInput sched) m b)
      (fun m => xmlAttr textInput m (c :: s)) := by
  have hfirst : Coupled (Together w s.length) (fun m => (bufferInput sched).gettok [61] m b)
      (fun m => textInput.gettok [61] m (c :: s)) := by
    obtain ⟨b', hr, hb'⟩ := h.gettok sched [61] []
    refine coupled_returns hr (returns_ok _) ⟨rfl, hb', ?_⟩
    have hne : c ≠ 61 := by
      rintro rfl
      exact absurd hc (by decide)
    show ((c :: s).dropWhile (· ∉ [61])).length ≤ s.length
    rw [List.dropWhile_cons_of_pos (by simpa using hne)]
    exact List.length_dropWhile_le _ s
  unfold xmlAttr
  refine hfirst.bind ?_
  rintro ⟨attr, b₁⟩ ⟨_, s₁⟩ ⟨rfl, hb₁, hle₁⟩
  obtain ⟨hskip, hle⟩ := delivers_skipc sched hb₁ hle₁
  refine (coupled_peek sched hskip hle).bind ?_
  rintro ⟨ch, b₂⟩ ⟨_, s₂⟩ ⟨rfl, hb₂, hle₂⟩
  cases ch with
  | none => exact coupled_ok ⟨rfl, hb₂, hle₂⟩
  | some ch =>
    dsimp only
    split
    · obtain ⟨hskip, hle⟩ := delivers_skipc sched hb₂ hle₂
      refine (coupled_gettok sched hskip hle [ch]).bind ?_
      rintro ⟨val, b₃⟩ ⟨_, s₃⟩ ⟨rfl, hb₃, hle₃⟩
      obtain ⟨hskip, hle⟩ := delivers_skipc sched hb₃ hle₃
      exact coupled_ok ⟨rfl, hskip, hle⟩
    · refine (coupled_gettok sched hb₂ hle₂ _).bind ?_
      rintro ⟨val, b₃⟩ ⟨_, s₃⟩ ⟨rfl, hb₃, hle₃⟩
      exact coupled_ok ⟨rfl, hb₃, hle₃⟩

theorem xmlAttrSet_ne_fuel (attrmap : Option (Dict Bytes Bytes)) (attr val : Bytes) :
    xmlAttrSet attrmap attr val ≠ .error .fuel := by
  unfold xmlAttrSet
  split
  · simp
  · split_ifs <;> simp

variable {σ : Type} {fn : XmlCallback σ} (hfn : ∀ r e, fn r e ≠ .error .fuel)

include hfn in
theorem coupled_attrs (sched : Schedule) (r : XmlReader σ) (h : Delivers w b s) (hn : s.length ≤ n) :
    Coupled (fun x y => x.1 = y.1 ∧ Together w n x.2 y.2)
      (fun m => loop (xmlAttrRound (bufferInput sched) fn) m (r, b))
      (fun m => loop (xmlAttrRound textInput fn) m (r, s)) := by
  refine Coupled.loop (Together w n) _ (fun t => t.2.length) ?_ ⟨rfl, h, hn⟩
  rintro ⟨r, b⟩ ⟨_, s⟩ ⟨rfl, hb, hle⟩
  refine (coupled_look sched hb).bind ?_
  rintro ⟨_, b₁⟩ _ ⟨rfl, rfl, hb₁⟩
  dsimp only
  cases hs : s.head?.filter isalpha with
  | none => exact coupled_ok (.done ⟨rfl, rfl, hb₁, hle⟩)
  | some c =>
    obtain ⟨hhead, halpha⟩ := Option.filter_eq_some_iff.mp hs
    obtain ⟨s', rfl⟩ : ∃ s', s = c :: s' := by
      cases s with
      | nil => cases hhead
      | cons d s' => exact ⟨s', by rw [Option.some.inj hhead]⟩
    refine (coupled_xmlAttr sched hb₁ halpha).bind ?_
    rintro ⟨av, b₂⟩ ⟨_, s₂⟩ ⟨rfl, hb₂, hle₂⟩
    have hless : s₂.length < (c :: s').length := Nat.lt_succ_of_le hle₂
    cases av with
    | none => exact coupled_ok (.done ⟨rfl, rfl, hb₂, hless.le.trans hle⟩)
    | some av =>
      obtain ⟨attr, val⟩ := av
      refine (coupled_same (xmlAttrSet_ne_fuel r.attrmap attr val)).bind ?_
      rintro attrmap _ rfl
      refine (coupled_same (hfn _ _)).bind ?_
      rintro ⟨go, name, r'⟩ _ rfl
      cases go with
      | false => exact coupled_ok (.done ⟨rfl, rfl, hb₂, hless.le.trans hle⟩)
      | true =>
        refine (coupled_skipspace sched hb₂ hle₂).bind ?_
        rintro ⟨k, b₃⟩ ⟨_, s₃⟩ ⟨-, hb₃, hle₃⟩
        refine coupled_ok (.next fun _ => ⟨⟨rfl, hb₃, ?_⟩, ?_⟩)
        · exact hle₃.trans (Nat.le_of_succ_le hle)
        · exact Nat.lt_succ_of_le hle₃

theorem delivers_skipc_if (sched : Schedule) (h : Delivers w b s) (hn : s.length ≤ n) (p : Prop) [Decidable p] :
    Delivers w (if p then (bufferInput sched).skipc b else b) (if p then textInput.skipc s else s) ∧
      (if p then textInput.skipc s else s).length ≤ n := by
  by_cases hp : p
  · rw [if_pos hp, if_pos hp]
    exact delivers_skipc sched h hn
  · rw [if_neg hp, if_neg hp]
    exact ⟨h, hn⟩

theorem coupled_xmlTagEnd (sched : Schedule) (r : XmlReader σ) (h : Delivers w b s) (hn : s.length ≤ n) :
    Coupled (Together w n) (fun m => xmlTagEnd (bufferInput sched) m r b) (fun m => xmlTagEnd textInput m r s) := by
  unfold xmlTagEnd
  refine (coupled_skipspace sched h hn).bind ?_
  rintro ⟨_, b₁⟩ ⟨_, s₁⟩ ⟨-, hb₁, hle₁⟩
  refine (coupled_peek sched hb₁ hle₁).bind ?_
  rintro ⟨c, b₂⟩ ⟨_, s₂⟩ ⟨rfl, hb₂, hle₂⟩
  dsimp only
  obtain ⟨hskip, hle⟩ := delivers_skipc_if sched hb₂ hle₂ (decide (c = some 47 ∨ c = some 63) = true)
  refine (coupled_skipspace sched hskip hle).bind ?_
  rintro ⟨_, b₃⟩ ⟨_, s₃⟩ ⟨-, hb₃, hle₃⟩
  refine (coupled_peek sched hb₃ hle₃).bind ?_
  rintro ⟨d, b₄⟩ ⟨_, s₄⟩ ⟨rfl, hb₄, hle₄⟩
  obtain ⟨hskip, hle⟩ := delivers_skipc_if sched hb₄ hle₄ (d = some 62)
  exact coupled_ok ⟨rfl, hskip, hle⟩

include hfn in
theorem coupled_xmlText (sched : Schedule) (r : XmlReader σ) (tag : Bytes) (c : UInt8) (h : Delivers w b s)
    (hn : s.length ≤ n) :
    Coupled (fun x y => x.1 = y.1 ∧ Together w n x.2 y.2) (fun m => xmlText (bufferInput sched) fn m r tag c b)
      (fun m => xmlText textInput fn m r tag c s) := by
  unfold xmlText
  split
  · refine (coupled_gettok sched h hn [60]).bind ?_
    rintro ⟨text, b₁⟩ ⟨_, s₁⟩ ⟨rfl, hb₁, hle₁⟩
    dsimp only
    split
    · exact coupled_ok ⟨rfl, rfl, hb₁, hle₁⟩
    · refine (coupled_same (hfn _ _)).bind ?_
      rintro ⟨go, tag', r'⟩ _ rfl
      exact coupled_ok ⟨rfl, rfl, hb₁, hle₁⟩
  · exact coupled_ok ⟨rfl, rfl, h, hn⟩

/-- The two readers are at the same place, with at most `n` bytes left, or one more at the test. -/
inductive SamePhase (w : Bool) : XmlPhase Buffer σ → XmlPhase Bytes σ → Prop
  | tag {r : XmlReader σ} {b : Buffer} {s : Bytes} : Delivers w b s → SamePhase w (.tag r b) (.tag r s)
  | test {r : XmlReader σ} {tag : Bytes} {b : Buffer} {s : Bytes} : Delivers w b s →
      SamePhase w (.test r tag b) (.test r tag s)

def XmlPhase.left : XmlPhase Bytes σ → Nat
  | .tag _ s => 2 * s.length
  | .test _ _ s => 2 * s.length + 1

abbrev SameRound (w : Bool) (n : Nat) :
    XmlPhase Buffer σ ⊕ XmlEnd × XmlReader σ → XmlPhase Bytes σ ⊕ XmlEnd × XmlReader σ → Prop :=
  Rounds (fun p q => SamePhase w p q ∧ q.left < n) Eq

include hfn in
theorem coupled_xmlTag (sched : Schedule) (r : XmlReader σ) (h : Delivers w b s) (hn : 2 * s.length + 1 < n) :
    Coupled (SameRound w n) (fun m => xmlTag (bufferInput sched) fn m r b) (fun m => xmlTag textInput fn m r s) := by
  unfold xmlTag
  refine (coupled_gettok sched h le_rfl _).bind ?_
  rintro ⟨tag, b₁⟩ ⟨_, s₁⟩ ⟨rfl, hb₁, hle₁⟩
  refine (coupled_skipspace sched hb₁ hle₁).bind ?_
  rintro ⟨_, b₂⟩ ⟨_, s₂⟩ ⟨-, hb₂, hle₂⟩
  refine (coupled_attrs hfn sched r hb₂ hle₂).bind ?_
  rintro ⟨e, r₃, b₃⟩ ⟨_, _, s₃⟩ ⟨rfl, rfl, hb₃, hle₃⟩
  cases e with
  | null => exact coupled_ok (.done rfl)
  | ended =>
    refine (coupled_xmlTagEnd sched r₃ hb₃ hle₃).bind ?_
    rintro ⟨r₄, b₄⟩ ⟨_, s₄⟩ ⟨rfl, hb₄, hle₄⟩
    refine (coupled_same (hfn _ _)).bind ?_
    rintro ⟨go, tag', r₅⟩ _ rfl
    refine (coupled_skipspace sched hb₄ hle₄).bind ?_
    rintro ⟨_, b₅⟩ ⟨_, s₅⟩ ⟨-, hb₅, hle₅⟩
    refine (coupled_peek sched hb₅ hle₅).bind ?_
    rintro ⟨c, b₆⟩ ⟨_, s₆⟩ ⟨rfl, hb₆, hle₆⟩
    cases c with
    | none => exact coupled_ok (.done rfl)
    | some c =>
      refine (coupled_xmlText hfn sched r₅ tag' c hb₆ hle₆).bind ?_
      rintro ⟨r₇, tag₇, b₇⟩ ⟨_, _, s₇⟩ ⟨rfl, rfl, hb₇, hle₇⟩
      refine coupled_ok (.next ⟨.test hb₇, ?_⟩)
      have hlast : s₇.length ≤ s.length := hle₇
      show 2 * s₇.length + 1 < n
      omega

include hfn in
theorem coupled_xmlMarkup (sched : Schedule) (r : XmlReader σ) (c : UInt8) (h : Delivers w b s)
    (hn : 2 * s.length + 1 < n) :
    Coupled (SameRound w n) (fun m => xmlMarkup (bufferInput sched) fn m r c b)
      (fun m => xmlMarkup textInput fn m r c s) := by
  unfold xmlMarkup
  split
  · obtain ⟨hskip, hle⟩ := delivers_skipc sched h le_rfl
    exact coupled_xmlTag hfn sched _ hskip (by omega)
  split
  · exact coupled_xmlTag hfn sched _ h hn
  split
  · refine (coupled_skipUntil sched h [62]).bind ?_
    rintro ⟨k, b₁⟩ ⟨_, s₁⟩ ⟨rfl, hb₁, hlt⟩
    dsimp only
    split
    · exact coupled_ok (.done rfl)
    · next hk =>
      have hless : s₁.length < s.length := hlt hk
      refine coupled_ok (.next ⟨.tag hb₁, ?_⟩)
      show 2 * s₁.length < n
      omega
  · exact coupled_xmlTag hfn sched r h hn

include hfn in
theorem coupled_tagRound (sched : Schedule) (r : XmlReader σ) (h : Delivers w b s) :
    Coupled (SameRound w (2 * s.length)) (fun m => xmlRound (bufferInput sched) fn m (.tag r b))
      (fun m => xmlRound textInput fn m (.tag r s)) := by
  unfold xmlRound
  refine (coupled_skipUntil sched h [60]).bind ?_
  rintro ⟨k, b₁⟩ ⟨_, s₁⟩ ⟨rfl, hb₁, hlt⟩
  dsimp only
  split
  · exact coupled_ok (.done rfl)
  · next hk =>
    have hless : s₁.length < s.length := hlt hk
    refine (coupled_look sched hb₁).bind ?_
    rintro ⟨_, b₂⟩ _ ⟨rfl, rfl, hb₂⟩
    dsimp only
    cases hs : s₁.head? with
    | none => exact coupled_ok (.done rfl)
    | some c => exact coupled_xmlMarkup hfn sched _ c hb₂ (by omega)

include hfn in
/-- The test is the only thing that depends on the buffer. -/
theorem coupled_testRound (sched : Schedule) (r : XmlReader σ) (tag : Bytes) (h : Delivers w b s)
    (htest : b.window.length ≤ 1 → s.length ≤ 1) :
    Coupled (SameRound w (2 * s.length + 1)) (fun m => xmlRound (bufferInput sched) fn m (.test r tag b))
      (fun m => xmlRound textInput fn m (.test r tag s)) := by
  have hiff : (bufferInput sched).ahead b ≤ 1 ↔ textInput.ahead s ≤ 1 :=
    ⟨htest, fun hs => h.window_le.trans hs⟩
  unfold xmlRound
  by_cases hend : textInput.ahead s ≤ 1
  · simp only [if_pos hend, if_pos (hiff.mpr hend)]
    exact coupled_ok (.done rfl)
  · simp only [if_neg hend, if_neg (mt hiff.mp hend)]
    refine (coupled_peek sched h le_rfl).bind ?_
    rintro ⟨c, b₁⟩ ⟨_, s₁⟩ ⟨-, hb₁, hle₁⟩
    have hleft : 2 * s₁.length < 2 * s.length + 1 := by
      have hle : s₁.length ≤ s.length := hle₁
      omega
    dsimp only
    split
    · exact coupled_ok (.next ⟨.tag hb₁, hleft⟩)
    · refine (coupled_same (hfn _ _)).bind ?_
      rintro ⟨go, name, r'⟩ _ rfl
      cases go with
      | true => exact coupled_ok (.next ⟨.tag hb₁, hleft⟩)
      | false => exact coupled_ok (.done rfl)

/-! ## Whole readings -/

/-- Where the test is made, it sees more than one byte or there is no more than one. -/
def TestsWell (fn : XmlCallback σ) (sched : Schedule) (p : XmlPhase Buffer σ) : Prop :=
  ∀ r tag b, Relation.ReflTransGen (GoesTo (xmlRound (bufferInput sched) fn)) p (.test r tag b) →
    b.window.length ≤ 1 → (b.window ++ b.source).length ≤ 1

include hfn in
theorem coupled_xmlRound (sched : Schedule) {p : XmlPhase Buffer σ} {q : XmlPhase Bytes σ}
    (h : SamePhase w p q) (htests : w = false → TestsWell fn sched p) :
    Coupled (SameRound w q.left) (fun m => xmlRound (bufferInput sched) fn m p)
      (fun m => xmlRound textInput fn m q) := by
  cases h with
  | tag hb => exact coupled_tagRound hfn sched _ hb
  | @test r tag b s hb =>
    refine coupled_testRound hfn sched r tag hb fun hle => ?_
    rw [← hb.unread]
    cases w with
    | true => rwa [hb.whole rfl, List.append_nil]
    | false => exact htests rfl r tag b .refl hle

include hfn in
/-- A reading from a buffer is one of the text. -/
theorem coupled_xmlReadCallback (sched : Schedule) (r : XmlReader σ) (h : Delivers w b s)
    (htests : w = false → TestsWell fn sched (.tag { r with attrmap := some [] } b)) :
    Coupled Eq (fun m => xmlReadCallback (bufferInput sched) fn m r b)
      (fun m => xmlReadCallback textInput fn m r s) := by
  refine Coupled.loop (fun p q => SamePhase w p q ∧ (w = false → TestsWell fn sched p)) Eq XmlPhase.left
    ?_ ⟨.tag h, htests⟩
  rintro p q ⟨hsame, htests⟩
  refine (coupled_xmlRound hfn sched hsame htests).mono ?_
  intro x y hround
  cases hround with
  | done heq => exact .done heq
  | next hnext =>
    refine .next fun hlead => ⟨⟨hnext.1, fun hw r' tag b' hreach => ?_⟩, hnext.2⟩
    exact htests hw r' tag b' (.head hlead hreach)

/-- A callback that returns 1, whatever it does to the reader and its data, with the events it got. -/
def recorded (f : XmlReader σ → XmlEvent → Bytes × XmlReader σ) : XmlCallback (σ × List XmlEvent) :=
  fun r e =>
    let (name, r') := f ⟨r.attrmap, r.closing, r.selfClosing, r.data.1⟩ e
    .ok (true, name, ⟨r'.attrmap, r'.closing, r'.selfClosing, r'.data, r.data.2 ++ [e]⟩)

theorem recorded_ne_fuel (f : XmlReader σ → XmlEvent → Bytes × XmlReader σ) (r : XmlReader (σ × List XmlEvent))
    (e : XmlEvent) : recorded f r e ≠ .error .fuel := by simp [recorded]

/-- A callback that leaves everything as it is. -/
def observe (r : XmlReader Unit) (e : XmlEvent) : Bytes × XmlReader Unit := (e.name.getD [], r)

def freshReader : XmlReader (Unit × List XmlEvent) := ⟨none, false, false, (), []⟩

/-- `<a>123<b>` -/
def twoTags : Bytes := [60, 97, 62, 49, 50, 51, 60, 98, 62]

/-- The first event of `twoTags`. -/
def firstTag : XmlEvent := ⟨.element, some [97], none, some []⟩

/-- All of `twoTags` comes with the first read. -/
theorem testsWell_twoTags : TestsWell (recorded observe) (fun _ => 16)
    (.tag { freshReader with attrmap := some [] } (bufferInit 16 twoTags)) := by
  have htest : GoesTo (xmlRound (bufferInput fun _ => 16) (recorded observe))
      (.tag { freshReader with attrmap := some [] } (bufferInit 16 twoTags))
      (.test ⟨some [], false, false, (), [firstTag]⟩ [97] ⟨[60, 98, 62], 6, 16, false, [], 1⟩) := by
    refine ⟨20, fun n hn => ?_⟩
    obtain ⟨k, rfl⟩ := Nat.exists_eq_add_of_le' hn
    rfl
  have htag : GoesTo (xmlRound (bufferInput fun _ => 16) (recorded observe))
      (.test ⟨some [], false, false, (), [firstTag]⟩ [97] ⟨[60, 98, 62], 6, 16, false, [], 1⟩)
      (.tag ⟨some [], false, false, (), [firstTag, ⟨.text, none, some [97], none⟩]⟩
        ⟨[60, 98, 62], 6, 16, false, [], 1⟩) := by
    refine ⟨20, fun n hn => ?_⟩
    obtain ⟨k, rfl⟩ := Nat.exists_eq_add_of_le' hn
    rfl
  have hdone : Returns (fun m => xmlRound (bufferInput fun _ => 16) (recorded observe) m
      (.tag ⟨some [], false, false, (), [firstTag, ⟨.text, none, some [97], none⟩]⟩
        ⟨[60, 98, 62], 6, 16, false, [], 1⟩))
      (.inr (.ended, ⟨some [], false, false, (),
        [firstTag, ⟨.text, none, some [97], none⟩, ⟨.element, some [98], none, some []⟩]⟩)) := by
    refine ⟨20, fun n hn => ?_⟩
    obtain ⟨k, rfl⟩ := Nat.exists_eq_add_of_le' hn
    rfl
  intro r tag b hreach hle
  rcases htest.reached hreach with heq | hreach
  · cases heq
  rcases htag.reached hreach with heq | hreach
  · cases heq
    exact absurd hle (by decide)
  · cases reached_of_done hdone hreach

end Dirlist
