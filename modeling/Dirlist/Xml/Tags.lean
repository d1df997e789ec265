import Dirlist.Xml.Buffering

/-! The reader over a text, tag by tag. What a tag is read as depends on the text alone, and where reading
goes on behind it on what the callback leaves in the reader. -/

namespace Dirlist
open Run

/-! ## The text of a tag -/

/-- `buffer_skipspace`: the blanks, and the byte behind them. -/
def afterSpace (s : Bytes) : Bytes := (s.dropWhile (· ∈ [32, 9, 11, 13, 10, 0])).tail

/-- An attribute, which there is unless the text ends behind its name, and the text behind it. -/
def attrAt (s : Bytes) : Option (Bytes × Bytes) × Bytes :=
  let u := (s.dropWhile (· ∉ [61])).tail
  match u.head? with
  | none => (none, u)
  | some q =>
    if q = 34 ∨ q = 39 then
      (some (s.takeWhile (· ∉ [61]), u.tail.takeWhile (· ∉ [q])), (u.tail.dropWhile (· ∉ [q])).tail)
    else
      (some (s.takeWhile (· ∉ [61]), u.takeWhile (· ∉ [47, 62, 32, 9, 13, 10, 11])),
        u.dropWhile (· ∉ [47, 62, 32, 9, 13, 10, 11]))

/-- The attributes of a tag, whether the text broke off, and what is behind them. -/
def attrsAt : Nat → Bytes → List (Bytes × Bytes) × XmlEnd × Bytes
  | 0, s => ([], .null, s)
  | n + 1, s =>
    if s.head?.any isalpha then
      match attrAt s with
      | (none, u) => ([], .null, u)
      | (some av, u) =>
        let (avs, finish, u) := attrsAt n (afterSpace u)
        (av :: avs, finish, u)
    else ([], .ended, s)

structure XmlTagText where
  name : Bytes
  attrs : List (Bytes × Bytes)
  finish : XmlEnd
  /-- a `/` or `?` behind the attributes -/
  slash : Bool
deriving DecidableEq, Repr

/-- The attributes of a tag from its name on. -/
def tagAttrs (s : Bytes) : List (Bytes × Bytes) × XmlEnd × Bytes :=
  attrsAt (s.length + 1) (afterSpace (s.dropWhile (· ∉ [32, 10, 9, 13, 11, 47, 62])))

/-- The end of a tag from behind its attributes on: whether there is a slash, and the text behind. -/
def tagEndAt (u : Bytes) : Bool × Bytes :=
  let u := afterSpace u
  let slash : Bool := u.head? = some 47 ∨ u.head? = some 63
  let u := afterSpace (if slash then u.tail else u)
  (slash, if u.head? = some 62 then u.tail else u)

/-- A tag from its name on, and the text behind its end. -/
def tagAt (s : Bytes) : XmlTagText × Bytes :=
  let (attrs, finish, u) := tagAttrs s
  let (slash, u) := tagEndAt u
  (⟨s.takeWhile (· ∉ [32, 10, 9, 13, 11, 47, 62]), attrs, finish, slash⟩, u)

/-! ## Reading on behind a tag -/

section Steps

variable {σ : Type} (fn : XmlCallback σ)

/-- The callbacks for the attributes of a tag. -/
def readAttrs : List (Bytes × Bytes) → XmlReader σ → Exec (XmlReader σ)
  | [], r => .ok r
  | (attr, val) :: avs, r => do
    let attrmap ← xmlAttrSet r.attrmap attr val
    let (_, _, r) ← fn { r with attrmap := some attrmap } ⟨.attribute, some attr, some val, none⟩
    readAttrs avs r

/-- The text behind a tag. -/
def readText (r : XmlReader σ) (tag : Bytes) : Bytes → Exec (XmlPhase Bytes σ ⊕ XmlEnd × XmlReader σ)
  | [] => .ok (.inr (.ended, r))
  | c :: u => do
    let (r, tag, u) ← xmlText textInput fn 0 r tag c (c :: u)
    .ok (.inl (.test { r with attrmap := some [] } tag u))

def readTag (r : XmlReader σ) (s : Bytes) : Exec (XmlPhase Bytes σ ⊕ XmlEnd × XmlReader σ) := do
  let r ← readAttrs fn (tagAt s).1.attrs r
  match (tagAt s).1.finish with
  | .null => .ok (.inr (.null, r))
  | .ended =>
    let r := if (tagAt s).1.slash then { r with selfClosing := true, closing := false } else r
    let (_, tag, r) ← fn r ⟨.element, some (tagAt s).1.name, none, r.attrmap⟩
    readText fn r tag (afterSpace (tagAt s).2)

/-- Behind a `<`. -/
def readMarkup (r : XmlReader σ) : Bytes → Exec (XmlPhase Bytes σ ⊕ XmlEnd × XmlReader σ)
  | [] => .ok (.inr (.null, r))
  | c :: u =>
    if c = 47 then readTag fn { r with closing := true } u
    else if c = 63 then readTag fn { r with selfClosing := true } (c :: u)
    else if c = 33 then
      if 62 ∈ u then .ok (.inl (.tag r (u.dropWhile (· ≠ 62)).tail)) else .ok (.inr (.ended, r))
    else readTag fn r (c :: u)

/-- A round of the reader, without fuel. -/
def readRound : XmlPhase Bytes σ → Exec (XmlPhase Bytes σ ⊕ XmlEnd × XmlReader σ)
  | .tag r s =>
    if 60 ∈ s then readMarkup fn { r with closing := false, selfClosing := false } (s.dropWhile (· ≠ 60)).tail
    else .ok (.inr (.ended, r))
  | .test r tag s => xmlRound textInput fn 0 (.test r tag s)

/-- The callback never stops the reading. -/
def GoesOn : Prop := ∀ r e x, fn r e = .ok x → x.1 = true

end Steps

/-! ## Shorter and shorter -/

variable {s : Bytes}

theorem afterSpace_le (s : Bytes) : (afterSpace s).length ≤ s.length := tail_dropWhile_le _ s

theorem attrAt_lt {c : UInt8} (hs : s.head? = some c) (hc : isalpha c = true) : (attrAt s).2.length < s.length := by
  obtain ⟨t, rfl⟩ : ∃ t, s = c :: t := by
    cases s with
    | nil => cases hs
    | cons d t => exact ⟨t, by rw [Option.some.inj hs]⟩
  have hne : c ≠ 61 := by
    rintro rfl
    exact absurd hc (by decide)
  have hdrop : (c :: t).dropWhile (· ∉ [61]) = t.dropWhile (· ∉ [61]) := List.dropWhile_cons_of_pos (by simpa using hne)
  have hle := tail_dropWhile_le (· ∉ [61]) t
  have hshort : (attrAt (c :: t)).2.length ≤ (t.dropWhile (· ∉ [61])).tail.length := by
    unfold attrAt
    dsimp only
    rw [hdrop]
    generalize (t.dropWhile (· ∉ [61])).tail = u
    cases hu : u.head? with
    | none => exact Nat.le_refl _
    | some q =>
      dsimp only
      split
      · exact (tail_dropWhile_le _ _).trans (by rw [List.length_tail]; exact Nat.sub_le _ _)
      · exact List.length_dropWhile_le _ _
  exact Nat.lt_succ_of_le (hshort.trans hle)

theorem attrsAt_le (n : Nat) (s : Bytes) : (attrsAt n s).2.2.length ≤ s.length := by
  induction n generalizing s with
  | zero => exact Nat.le_refl _
  | succ n ih =>
    rw [attrsAt]
    split_ifs with hany
    · obtain ⟨c, hs, hc⟩ := (Option.any_eq_true _ _).mp hany
      have hlt := attrAt_lt hs hc
      cases hat : attrAt s with
      | mk av u =>
        rw [hat] at hlt
        cases av with
        | none => exact Nat.le_of_lt hlt
        | some av => exact (ih _).trans ((afterSpace_le u).trans (Nat.le_of_lt hlt))
    · exact Nat.le_refl _

theorem tagEndAt_le (u : Bytes) : (tagEndAt u).2.length ≤ u.length := by
  have htail (v : Bytes) (b : Prop) [Decidable b] : (if b then v.tail else v).length ≤ v.length := by
    split_ifs
    · rw [List.length_tail]
      exact Nat.sub_le _ _
    · exact Nat.le_refl _
  exact (htail _ _).trans ((afterSpace_le _).trans ((htail _ _).trans (afterSpace_le u)))

theorem tagAt_le (s : Bytes) : (tagAt s).2.length ≤ s.length := by
  have hattrs : (tagAttrs s).2.2.length ≤ s.length :=
    (attrsAt_le _ _).trans ((afterSpace_le _).trans (List.length_dropWhile_le _ s))
  exact (tagEndAt_le (tagAttrs s).2.2).trans hattrs

/-! ## What follows a tag -/

variable {u : Bytes} {p : UInt8 → Bool} {m n : Nat}

theorem dropWhile_append_ne (h : s.dropWhile p ≠ []) (x : Bytes) : (s ++ x).dropWhile p = s.dropWhile p ++ x := by
  rw [List.dropWhile_append, if_neg (by rwa [List.isEmpty_iff])]

theorem takeWhile_append_ne (h : s.dropWhile p ≠ []) (x : Bytes) : (s ++ x).takeWhile p = s.takeWhile p := by
  have hlen : (s.takeWhile p).length ≠ s.length := by
    intro heq
    have hall := congrArg List.length (List.takeWhile_append_dropWhile (p := p) (l := s))
    rw [List.length_append, heq] at hall
    exact h (List.eq_nil_of_length_eq_zero (by omega))
  rw [List.takeWhile_append, if_neg hlen]

theorem skip_append (h : (s.dropWhile p).tail ≠ []) (x : Bytes) :
    ((s ++ x).dropWhile p).tail = (s.dropWhile p).tail ++ x := by
  have hne : s.dropWhile p ≠ [] := fun hnil => h (by rw [hnil, List.tail_nil])
  rw [dropWhile_append_ne hne, List.tail_append_of_ne_nil hne]

theorem afterSpace_append (h : afterSpace s ≠ []) (x : Bytes) : afterSpace (s ++ x) = afterSpace s ++ x :=
  skip_append h x

theorem attrAt_append (h : (attrAt s).2 ≠ []) (x : Bytes) : attrAt (s ++ x) = ((attrAt s).1, (attrAt s).2 ++ x) := by
  have hu : (s.dropWhile (· ∉ [61])).tail ≠ [] := by
    intro hnil
    apply h
    rw [attrAt, hnil]
    rfl
  have hne : s.dropWhile (· ∉ [61]) ≠ [] := fun hnil => hu (by rw [hnil, List.tail_nil])
  unfold attrAt at h ⊢
  rw [skip_append hu, takeWhile_append_ne hne]
  generalize (s.dropWhile (· ∉ [61])).tail = u at h hu ⊢
  obtain ⟨q, u, rfl⟩ := List.exists_cons_of_ne_nil hu
  dsimp only [List.head?_cons, List.tail_cons, List.cons_append] at h ⊢
  by_cases hq : q = 34 ∨ q = 39
  · rw [if_pos hq] at h ⊢
    have hquote : u.dropWhile (· ∉ [q]) ≠ [] := fun hnil => h (by rw [hnil]; rfl)
    rw [if_pos hq, skip_append h, takeWhile_append_ne hquote]
  · rw [if_neg hq] at h ⊢
    rw [if_neg hq, ← List.cons_append, dropWhile_append_ne h, takeWhile_append_ne h]

theorem attrsAt_append (h : (attrsAt n s).2.2 ≠ []) (x : Bytes) :
    attrsAt n (s ++ x) = ((attrsAt n s).1, (attrsAt n s).2.1, (attrsAt n s).2.2 ++ x) := by
  induction n generalizing s with
  | zero => rfl
  | succ n ih =>
    have hs : s ≠ [] := by
      rintro rfl
      exact h rfl
    rw [attrsAt] at h
    rw [attrsAt, attrsAt, List.head?_append_of_ne_nil _ hs]
    split_ifs at h ⊢ with hany
    · have hat : (attrAt s).2 ≠ [] := by
        intro hnil
        apply h
        generalize attrAt s = a at hnil
        obtain ⟨_ | av, u⟩ := a
        · exact hnil
        · obtain rfl : u = [] := hnil
          exact List.eq_nil_of_length_eq_zero (Nat.le_zero.mp (attrsAt_le n (afterSpace [])))
      rw [attrAt_append hat]
      generalize attrAt s = a at h hat
      obtain ⟨_ | av, u⟩ := a
      · rfl
      · have hspace : afterSpace u ≠ [] := by
          intro hnil
          apply h
          dsimp only
          rw [hnil]
          exact List.eq_nil_of_length_eq_zero (Nat.le_zero.mp (attrsAt_le n []))
        dsimp only at h ⊢
        rw [afterSpace_append hspace, ih h]
    · rfl

/-- Rounds beyond the length of the text make no difference. -/
theorem attrsAt_eq (hm : s.length < m) (hn : s.length < n) : attrsAt m s = attrsAt n s := by
  induction m generalizing n s with
  | zero => exact absurd hm (Nat.not_lt_zero _)
  | succ m ih =>
    obtain ⟨n, rfl⟩ : ∃ k, n = k + 1 := ⟨n - 1, by omega⟩
    rw [attrsAt, attrsAt]
    split_ifs with hany
    · obtain ⟨c, hs, hc⟩ := (Option.any_eq_true _ _).mp hany
      have hlt := attrAt_lt hs hc
      generalize attrAt s = a at hlt
      obtain ⟨_ | av, u⟩ := a
      · rfl
      · have hle := afterSpace_le u
        dsimp only at hlt ⊢
        rw [@ih (afterSpace u) n (by omega) (by omega)]
    · rfl

theorem tagAttrs_append (h : (tagAttrs s).2.2 ≠ []) (x : Bytes) :
    tagAttrs (s ++ x) = ((tagAttrs s).1, (tagAttrs s).2.1, (tagAttrs s).2.2 ++ x) := by
  have hspace : afterSpace (s.dropWhile (· ∉ [32, 10, 9, 13, 11, 47, 62])) ≠ [] := by
    intro hnil
    apply h
    rw [tagAttrs, hnil]
    rfl
  have hname : s.dropWhile (· ∉ [32, 10, 9, 13, 11, 47, 62]) ≠ [] := by
    intro hnil
    apply hspace
    rw [hnil]
    rfl
  have hle := (afterSpace_le (s.dropWhile (· ∉ [32, 10, 9, 13, 11, 47, 62]))).trans (List.length_dropWhile_le _ s)
  have hmore := @attrsAt_eq (afterSpace (s.dropWhile (· ∉ [32, 10, 9, 13, 11, 47, 62]))) (s.length + 1)
    ((s ++ x).length + 1) (by omega) (by rw [List.length_append]; omega)
  rw [tagAttrs] at h ⊢
  rw [hmore] at h
  rw [dropWhile_append_ne hname, afterSpace_append hspace, attrsAt_append h, tagAttrs, hmore]

/-- A byte that may be there is skipped. -/
theorem skipIf_append {b : Prop} [Decidable b] (h : (if b then u.tail else u) ≠ []) (x : Bytes) :
    (if b then (u ++ x).tail else u ++ x) = (if b then u.tail else u) ++ x := by
  split_ifs at h ⊢
  · have hu : u ≠ [] := by
      rintro rfl
      exact h rfl
    exact List.tail_append_of_ne_nil hu
  · rfl

theorem tagEndAt_append (h : (tagEndAt u).2 ≠ []) (x : Bytes) :
    tagEndAt (u ++ x) = ((tagEndAt u).1, (tagEndAt u).2 ++ x) := by
  have hskip {b : Prop} [Decidable b] {w : Bytes} (hw : (if b then w.tail else w) ≠ []) : w ≠ [] := by
    rintro rfl
    exact hw (by split <;> rfl)
  unfold tagEndAt at h ⊢
  dsimp only at h ⊢
  have hsecond := hskip h
  have hslash : (if decide ((afterSpace u).head? = some 47 ∨ (afterSpace u).head? = some 63) = true then
      (afterSpace u).tail else afterSpace u) ≠ [] := by
    intro hnil
    exact hsecond (by rw [hnil]; rfl)
  have hfirst := hskip hslash
  rw [afterSpace_append hfirst, List.head?_append_of_ne_nil _ hfirst, skipIf_append hslash,
    afterSpace_append hsecond, List.head?_append_of_ne_nil _ hsecond, skipIf_append h]

theorem tagAt_append (h : (tagAt s).2 ≠ []) (x : Bytes) : tagAt (s ++ x) = ((tagAt s).1, (tagAt s).2 ++ x) := by
  have hattrs : (tagAttrs s).2.2 ≠ [] := by
    intro hnil
    exact h (show (tagEndAt (tagAttrs s).2.2).2 = [] by rw [hnil]; rfl)
  have hname : s.dropWhile (· ∉ [32, 10, 9, 13, 11, 47, 62]) ≠ [] := by
    intro hnil
    apply hattrs
    rw [tagAttrs, hnil]
    rfl
  have hend : (tagEndAt (tagAttrs s).2.2).2 ≠ [] := h
  unfold tagAt
  rw [tagAttrs_append hattrs]
  dsimp only
  rw [tagEndAt_append hend, takeWhile_append_ne hname]

/-! ## The rounds -/

@[simp] theorem text_peek (m : Nat) (s : Bytes) : textInput.peek m s = .ok (s.head?, s) := rfl

@[simp] theorem text_skipc (s : Bytes) : textInput.skipc s = s.tail := rfl

@[simp] theorem text_skipspace (m : Nat) (s : Bytes) : textInput.skipspace m s =
    .ok (skipped (· ∈ [32, 9, 11, 13, 10, 0]) 0 s, afterSpace s) := rfl

@[simp] theorem text_gettok (charset : Bytes) (m : Nat) (s : Bytes) :
    textInput.gettok charset m s = .ok (s.takeWhile (· ∉ charset), s.dropWhile (· ∉ charset)) := rfl

section Rounds

variable {σ : Type} {fn : XmlCallback σ}

theorem notMem_one (d : UInt8) : (fun c => decide (c ∉ [d])) = fun c => decide (c ≠ d) := by
  funext c
  simp

theorem dropWhile_ne_nil (d : UInt8) (s : Bytes) : s.dropWhile (· ≠ d) = [] ↔ d ∉ s := by
  rw [List.dropWhile_eq_nil_iff]
  simp only [decide_eq_true_iff]
  exact ⟨fun h hd => h d hd rfl, fun h c hc hcd => h (hcd ▸ hc)⟩

theorem skipped_eq_zero (d : UInt8) (n : Nat) (s : Bytes) : skipped (· ∉ [d]) n s = 0 ↔ d ∉ s := by
  have hnil : s.dropWhile (· ∉ [d]) = [] ↔ d ∉ s := by
    rw [notMem_one]
    exact dropWhile_ne_nil d s
  rw [skipped, ← hnil]
  by_cases h : s.dropWhile (· ∉ [d]) = []
  · rw [if_pos h]
    exact iff_of_true rfl h
  · rw [if_neg h]
    exact iff_of_false (Nat.succ_ne_zero _) h

theorem xmlAttr_text (m : Nat) (s : Bytes) : xmlAttr textInput m s = .ok (attrAt s) := by
  unfold xmlAttr attrAt
  simp only [text_gettok, text_skipc, text_peek, ok_bind]
  cases ((s.dropWhile (· ∉ [61])).tail).head? with
  | none => rfl
  | some q =>
    dsimp only
    split <;> rfl

/-- The attributes of a text, by induction on the rounds there are. -/
theorem settles_attrs (hgo : GoesOn fn) {n : Nat} {s : Bytes} (hn : s.length < n) (r : XmlReader σ) :
    Settles (fun m => loop (xmlAttrRound textInput fn) m (r, s))
      (do
        let r ← readAttrs fn (attrsAt n s).1 r
        .ok ((attrsAt n s).2.1, r, (attrsAt n s).2.2)) := by
  induction n generalizing s r with
  | zero => exact absurd hn (Nat.not_lt_zero _)
  | succ n ih =>
    cases hs : s.head?.filter isalpha with
    | none =>
      have hany : ¬s.head?.any isalpha = true := by
        rw [← Option.isSome_filter, hs]
        exact Bool.false_ne_true
      have hdone (m : Nat) : xmlAttrRound textInput fn m (r, s) = .ok (.inr (.ended, r, s)) := by
        simp only [xmlAttrRound, text_peek, ok_bind, hs]
      rw [attrsAt, if_neg hany]
      exact settles_loop_done hdone
    | some c =>
      obtain ⟨hhead, halpha⟩ := Option.filter_eq_some_iff.mp hs
      have hany : s.head?.any isalpha = true := by rw [← Option.isSome_filter, hs]; rfl
      have hlt := attrAt_lt hhead halpha
      rw [attrsAt, if_pos hany]
      cases hat : attrAt s with
      | mk av u =>
        rw [hat] at hlt
        cases av with
        | none =>
          refine settles_loop_done fun m => ?_
          simp only [xmlAttrRound, text_peek, ok_bind, hs, xmlAttr_text]
          rw [hat]
        | some av =>
          obtain ⟨attr, val⟩ := av
          have hround (m : Nat) : xmlAttrRound textInput fn m (r, s) =
              (xmlAttrSet r.attrmap attr val >>= fun attrmap =>
                fn { r with attrmap := some attrmap } ⟨.attribute, some attr, some val, none⟩ >>= fun x =>
                  if x.1 then .ok (.inl (x.2.2, afterSpace u)) else .ok (.inr (.ended, x.2.2, u))) := by
            simp only [xmlAttrRound, text_peek, ok_bind, hs, xmlAttr_text]
            rw [hat]
            rfl
          dsimp only
          rw [readAttrs]
          cases hset : xmlAttrSet r.attrmap attr val with
          | error e => exact settles_loop_error fun m => by rw [hround, hset, error_bind]
          | ok attrmap =>
            simp only [hset, ok_bind] at hround ⊢
            cases hcall : fn { r with attrmap := some attrmap } ⟨.attribute, some attr, some val, none⟩ with
            | error e => exact settles_loop_error fun m => by rw [hround, hcall, error_bind]
            | ok x =>
              have hgoes : x.1 = true := hgo _ _ _ hcall
              have hnext (m : Nat) : xmlAttrRound textInput fn m (r, s) = .ok (.inl (x.2.2, afterSpace u)) := by
                rw [hround, hcall, ok_bind, if_pos hgoes]
              have hshort : (afterSpace u).length < n :=
                Nat.lt_of_le_of_lt (afterSpace_le u) (Nat.lt_of_lt_of_le hlt (Nat.le_of_lt_succ hn))
              exact settles_loop_next hnext (ih hshort x.2.2)

theorem xmlTagEnd_text (m : Nat) (r : XmlReader σ) (u : Bytes) : xmlTagEnd textInput m r u =
    .ok (if (tagEndAt u).1 then { r with selfClosing := true, closing := false } else r, (tagEndAt u).2) := rfl

theorem xmlText_text (m : Nat) (r : XmlReader σ) (tag : Bytes) (c : UInt8) (u : Bytes) :
    xmlText textInput fn m r tag c u = xmlText textInput fn 0 r tag c u := rfl

theorem settles_tag (hgo : GoesOn fn) (r : XmlReader σ) (s : Bytes) :
    Settles (fun m => xmlTag textInput fn m r s) (readTag fn r s) := by
  have hshort : (afterSpace (s.dropWhile (· ∉ [32, 10, 9, 13, 11, 47, 62]))).length < s.length + 1 :=
    Nat.lt_succ_of_le ((afterSpace_le _).trans (List.length_dropWhile_le _ s))
  have hattrs := settles_attrs hgo hshort r
  unfold xmlTag readTag
  simp only [text_gettok, text_skipspace, ok_bind]
  show Settles _ (readAttrs fn (tagAttrs s).1 r >>= _)
  cases hread : readAttrs fn (tagAttrs s).1 r with
  | error e =>
    rw [show attrsAt _ _ = tagAttrs s from rfl, hread] at hattrs
    exact hattrs.bind_error
  | ok r₁ =>
    rw [show attrsAt _ _ = tagAttrs s from rfl, hread] at hattrs
    refine Settles.bind hattrs ?_
    have hfinish : (tagAt s).1.finish = (tagAttrs s).2.1 := rfl
    have hslash : (tagAt s).1.slash = (tagEndAt (tagAttrs s).2.2).1 := rfl
    have hname : (tagAt s).1.name = s.takeWhile (· ∉ [32, 10, 9, 13, 11, 47, 62]) := rfl
    have hrest : (tagAt s).2 = (tagEndAt (tagAttrs s).2.2).2 := rfl
    rw [ok_bind, hfinish, hslash, hname, hrest]
    cases (tagAttrs s).2.1 with
    | null => exact settles_const _
    | ended =>
      simp only [xmlTagEnd_text, ok_bind, text_peek, xmlText_text]
      generalize (if (tagEndAt (tagAttrs s).2.2).1 then { r₁ with selfClosing := true, closing := false } else r₁) = r₂
      generalize fn r₂ ⟨.element, some (s.takeWhile (· ∉ [32, 10, 9, 13, 11, 47, 62])), none, r₂.attrmap⟩ = y
      generalize afterSpace (tagEndAt (tagAttrs s).2.2).2 = v
      cases y with
      | error e => exact settles_const _
      | ok x =>
        cases v with
        | nil => exact settles_const _
        | cons c u => exact settles_const _

theorem settles_markup (hgo : GoesOn fn) (r : XmlReader σ) (c : UInt8) (u : Bytes) :
    Settles (fun m => xmlMarkup textInput fn m r c (c :: u)) (readMarkup fn r (c :: u)) := by
  unfold xmlMarkup readMarkup
  by_cases hslash : c = 47
  · simp only [if_pos hslash]
    exact settles_tag hgo _ u
  · simp only [if_neg hslash]
    by_cases hquery : c = 63
    · simp only [if_pos hquery]
      exact settles_tag hgo _ (c :: u)
    · simp only [if_neg hquery]
      by_cases hbang : c = 33
      · have hne : c ≠ 62 := fun h => absurd (hbang.symm.trans h) (by decide)
        have hrest : textInput.skipUntil [62] 0 (c :: u) =
            .ok (skipped (· ∉ [62]) 0 (c :: u), (u.dropWhile (· ≠ 62)).tail) := by
          have hdrop : (c :: u).dropWhile (· ∉ [62]) = u.dropWhile (· ≠ 62) := by
            rw [List.dropWhile_cons_of_pos (by simpa using hne), notMem_one]
          show Except.ok (_, ((c :: u).dropWhile (· ∉ [62])).tail) = _
          rw [hdrop]
        have hzero : skipped (· ∉ [62]) 0 (c :: u) = 0 ↔ 62 ∉ u := by
          rw [skipped_eq_zero, List.mem_cons, or_iff_right (Ne.symm hne)]
        simp only [if_pos hbang]
        refine ⟨0, fun m _ => ?_⟩
        show (textInput.skipUntil [62] 0 (c :: u) >>= _) = _
        rw [hrest, ok_bind]
        by_cases hend : 62 ∈ u
        · rw [if_pos hend, if_neg (mt hzero.mp (not_not.mpr hend))]
        · rw [if_neg hend, if_pos (hzero.mpr hend)]
      · simp only [if_neg hbang]
        exact settles_tag hgo r (c :: u)

theorem settles_round (hgo : GoesOn fn) (p : XmlPhase Bytes σ) :
    Settles (fun m => xmlRound textInput fn m p) (readRound fn p) := by
  cases p with
  | tag r s =>
    have hrest (m : Nat) : textInput.skipUntil [60] m s =
        .ok (skipped (· ∉ [60]) 0 s, (s.dropWhile (· ≠ 60)).tail) := by
      show Except.ok (_, (s.dropWhile (· ∉ [60])).tail) = _
      rw [notMem_one]
    unfold xmlRound readRound
    simp only [hrest, ok_bind, skipped_eq_zero, text_peek]
    by_cases hfound : 60 ∈ s
    · simp only [if_neg (not_not.mpr hfound), if_pos hfound]
      cases (s.dropWhile (· ≠ 60)).tail with
      | nil => exact settles_const _
      | cons c u => exact settles_markup hgo _ c u
    · simp only [if_pos hfound, if_neg hfound]
      exact settles_const _
  | test r tag s => exact ⟨0, fun _ _ => rfl⟩

/-- Reading a text comes to what the rounds without fuel come to. -/
theorem settles_read (hgo : GoesOn fn) {r : XmlReader σ} {s : Bytes} {x : Exec (XmlEnd × XmlReader σ)}
    (h : ComesTo (readRound fn) (readRound fn (.tag { r with attrmap := some [] } s)) x) :
    Settles (fun m => xmlReadCallback textInput fn m r s) x := h.settles (settles_round hgo)

end Rounds

end Dirlist
