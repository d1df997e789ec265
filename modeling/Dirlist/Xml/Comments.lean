import Dirlist.Xml.Tags

/-! Comments in front of tags. A tag whose end the reader finds in front of the next one is read in the same way
whatever follows, and a comment is passed over unless something in it is read as a tag. -/

namespace Dirlist
open Run

variable {s t u v x : Bytes} {m n : Nat}

/-! ## A text in front of a tag -/

/-- Going through a text tag by tag, the reader comes to stand in front of its last byte, which is a `<`. -/
def leavesLast : Nat → Bytes → Bool
  | 0, _ => false
  | n + 1, s =>
    match s.dropWhile (· ≠ 60) with
    | [] => false
    | [_] => true
    | _ :: c :: u =>
      if c = 33 then leavesLast n (u.dropWhile (· ≠ 62)).tail
      else
        let (t, v) := tagAt (if c = 47 then u else c :: u)
        t.finish = .ended && leavesLast n (afterSpace v)

theorem mem_of_leavesLast (h : leavesLast n s = true) : 60 ∈ s := by
  by_contra hmem
  cases n with
  | zero => cases h
  | succ n =>
    rw [leavesLast, (dropWhile_ne_nil 60 s).mpr hmem] at h
    cases h

theorem leavesLast_dropWhile (n : Nat) (s : Bytes) : leavesLast n (s.dropWhile (· ≠ 60)) = leavesLast n s := by
  cases n with
  | zero => rfl
  | succ n => rw [leavesLast, leavesLast, List.dropWhile_idempotent]

section Rounds

variable {σ : Type} {fn : XmlCallback σ} {r : XmlReader σ}
  {f g : Bytes → Exec (XmlPhase Bytes σ ⊕ XmlEnd × XmlReader σ)}

/-- What is read in front of a tag comes to the same whatever the tag is and follows it: to a reader in front of it,
or to a fault. -/
inductive Passes (fn : XmlCallback σ) (f : Bytes → Exec (XmlPhase Bytes σ ⊕ XmlEnd × XmlReader σ)) : Prop
  | on (r : XmlReader σ) : (∀ x ≠ [], ∀ z, ComesTo (readRound fn) (readRound fn (.tag r (60 :: x))) z →
      ComesTo (readRound fn) (f x) z) → Passes fn f
  | fault (e : Fault) : e ≠ .fuel → (∀ x ≠ [], ComesTo (readRound fn) (f x) (.error e)) → Passes fn f

theorem Passes.congr (h : Passes fn g) (hfg : ∀ x ≠ [], f x = g x) : Passes fn f := by
  cases h with
  | on r h => exact .on r fun x hx z hz => hfg x hx ▸ h x hx z hz
  | fault e he h => exact .fault e he fun x hx => hfg x hx ▸ h x hx

theorem Passes.next {q : Bytes → XmlPhase Bytes σ} (h : Passes fn fun x => readRound fn (q x)) :
    Passes fn fun x => .ok (.inl (q x)) := by
  cases h with
  | on r h => exact .on r fun x hx z hz => (h x hx z hz).next
  | fault e he h => exact .fault e he fun x hx => (h x hx).next

theorem passes_error {e : Fault} (he : e ≠ .fuel) : Passes fn fun _ => .error e := .fault e he fun _ _ => .error he

/-- Where the reader stands, whatever it holds, the text is read in the same way whatever follows. -/
def PassesOn (fn : XmlCallback σ) (v : Bytes) : Prop := ∀ r, Passes fn fun x => readRound fn (.tag r (v ++ x))

variable (hfn : ∀ r e, fn r e ≠ .error .fuel) (hgo : GoesOn fn)

include hfn in
theorem readAttrs_ne_fuel (avs : List (Bytes × Bytes)) (r : XmlReader σ) : readAttrs fn avs r ≠ .error .fuel := by
  induction avs generalizing r with
  | nil => simp [readAttrs]
  | cons av avs ih =>
    refine bind_ne_fuel (xmlAttrSet_ne_fuel _ _ _) fun attrmap => ?_
    exact bind_ne_fuel (hfn _ _) fun y => ih y.2.2

include hfn hgo in
theorem PassesOn.test (h : PassesOn fn v) (hv : v ≠ []) (r : XmlReader σ) (tag : Bytes) :
    Passes fn fun x => .ok (.inl (.test r tag (v ++ x))) := by
  apply Passes.next
  have hround {x : Bytes} (hx : x ≠ []) : readRound fn (.test r tag (v ++ x)) =
      if xmlIsWhitespace tag then .ok (.inl (.tag r (v ++ x))) else
        fn r ⟨.text, none, some tag, none⟩ >>= fun y =>
          if y.1 then .ok (.inl (.tag y.2.2 (v ++ x))) else .ok (.inr (.ended, y.2.2)) := by
    have hpos := List.length_pos_of_ne_nil hv
    have hpos' := List.length_pos_of_ne_nil hx
    have hlen : ¬(v ++ x).length ≤ 1 := by
      rw [List.length_append]
      omega
    exact if_neg hlen
  by_cases hblank : xmlIsWhitespace tag
  · refine Passes.congr (h r).next fun x hx => ?_
    rw [hround hx, if_pos hblank]
  · cases hcall : fn r ⟨.text, none, some tag, none⟩ with
    | error e =>
      have he : e ≠ .fuel := fun heq => hfn _ _ (heq ▸ hcall)
      refine (passes_error he).congr fun x hx => ?_
      rw [hround hx, if_neg hblank, hcall, error_bind]
    | ok y =>
      refine Passes.congr (h y.2.2).next fun x hx => ?_
      rw [hround hx, if_neg hblank, hcall, ok_bind, if_pos (hgo _ _ _ hcall)]

include hfn hgo in
/-- The text behind a tag ends in front of the next one. -/
theorem PassesOn.text (h : PassesOn fn v) (hskip : PassesOn fn (v.dropWhile (· ≠ 60))) (hmem : 60 ∈ v)
    (r : XmlReader σ) (tag : Bytes) : Passes fn fun x => readText fn r tag (v ++ x) := by
  have hdrop : v.dropWhile (· ≠ 60) ≠ [] := mt (dropWhile_ne_nil 60 v).mp (not_not.mpr hmem)
  have hgettok (x : Bytes) : textInput.gettok [60] 0 (v ++ x) =
      .ok (v.takeWhile (· ≠ 60), v.dropWhile (· ≠ 60) ++ x) := by
    rw [text_gettok, notMem_one, dropWhile_append_ne hdrop, takeWhile_append_ne hdrop]
  obtain ⟨c, v', rfl⟩ := List.exists_cons_of_ne_nil (List.ne_nil_of_mem hmem)
  have hread (x : Bytes) : readText fn r tag (c :: v' ++ x) =
      xmlText textInput fn 0 r tag c (c :: v' ++ x) >>= fun y =>
        .ok (.inl (.test { y.1 with attrmap := some [] } y.2.1 y.2.2)) := rfl
  by_cases htext : c ≠ 60 ∧ (r.closing || r.selfClosing) = false
  · by_cases hblank : xmlIsWhitespace ((c :: v').takeWhile (· ≠ 60))
    · refine (hskip.test hfn hgo hdrop { r with attrmap := some [] } ((c :: v').takeWhile (· ≠ 60))).congr fun x _ => ?_
      rw [hread, xmlText, if_pos htext, hgettok, ok_bind]
      dsimp only
      rw [if_pos hblank, ok_bind]
    · cases hcall : fn r ⟨.text, some ((c :: v').takeWhile (· ≠ 60)), none, none⟩ with
      | error e =>
        have he : e ≠ .fuel := fun heq => hfn _ _ (heq ▸ hcall)
        refine (passes_error he).congr fun x _ => ?_
        rw [hread, xmlText, if_pos htext, hgettok, ok_bind]
        dsimp only
        rw [if_neg hblank, hcall, error_bind, error_bind]
      | ok y =>
        refine (hskip.test hfn hgo hdrop { y.2.2 with attrmap := some [] } y.2.1).congr fun x _ => ?_
        rw [hread, xmlText, if_pos htext, hgettok, ok_bind]
        dsimp only
        rw [if_neg hblank, hcall, ok_bind, ok_bind]
  · refine (h.test hfn hgo (List.cons_ne_nil c v') { r with attrmap := some [] } tag).congr fun x _ => ?_
    rw [hread, xmlText, if_neg htext, ok_bind]

include hfn hgo in
theorem PassesOn.tag (h : PassesOn fn (afterSpace (tagAt s).2))
    (hskip : PassesOn fn ((afterSpace (tagAt s).2).dropWhile (· ≠ 60))) (hmem : 60 ∈ afterSpace (tagAt s).2)
    (hfinish : (tagAt s).1.finish = .ended) (r : XmlReader σ) : Passes fn fun x => readTag fn r (s ++ x) := by
  have hspace : afterSpace (tagAt s).2 ≠ [] := List.ne_nil_of_mem hmem
  have htag : (tagAt s).2 ≠ [] := by
    intro hnil
    exact hspace (by rw [hnil]; rfl)
  have hread (x : Bytes) : readTag fn r (s ++ x) = readAttrs fn (tagAt s).1.attrs r >>= fun r =>
      let r := if (tagAt s).1.slash then { r with selfClosing := true, closing := false } else r
      fn r ⟨.element, some (tagAt s).1.name, none, r.attrmap⟩ >>= fun y =>
        readText fn y.2.2 y.2.1 (afterSpace (tagAt s).2 ++ x) := by
    unfold readTag
    rw [tagAt_append htag]
    dsimp only
    rw [hfinish, afterSpace_append hspace]
  cases hattrs : readAttrs fn (tagAt s).1.attrs r with
  | error e =>
    have he : e ≠ .fuel := fun heq => readAttrs_ne_fuel hfn _ _ (heq ▸ hattrs)
    exact (passes_error he).congr fun x _ => by rw [hread, hattrs, error_bind]
  | ok r₁ =>
    have hset (x : Bytes) := (hread x).trans (by rw [hattrs, ok_bind])
    dsimp only at hset
    generalize (if (tagAt s).1.slash then { r₁ with selfClosing := true, closing := false } else r₁) = r₂ at hset
    cases hcall : fn r₂ ⟨.element, some (tagAt s).1.name, none, r₂.attrmap⟩ with
    | error e =>
      have he : e ≠ .fuel := fun heq => hfn _ _ (heq ▸ hcall)
      exact (passes_error he).congr fun x _ => by rw [hset, hcall, error_bind]
    | ok y => exact (h.text hfn hgo hskip hmem y.2.2 y.2.1).congr fun x _ => by rw [hset, hcall, ok_bind]

theorem dropWhile_tag (h : 60 ∈ s) : ∃ w, s.dropWhile (· ≠ 60) = 60 :: w := by
  obtain ⟨a, t, rfl, -, ht, -, hdrop⟩ := exists_until 60 s
  rcases ht with rfl | ⟨w, rfl⟩
  · exact absurd h ((dropWhile_ne_nil 60 _).mp hdrop)
  · exact ⟨w, hdrop⟩

theorem readRound_tag {c : UInt8} (hs : s.dropWhile (· ≠ 60) = 60 :: c :: u) (r : XmlReader σ) :
    readRound fn (.tag r s) = readMarkup fn { r with closing := false, selfClosing := false } (c :: u) := by
  have hmem : 60 ∈ s := by
    apply (List.dropWhile_sublist (· ≠ 60)).subset
    rw [hs]
    exact List.mem_cons_self
  rw [readRound, if_pos hmem, hs, List.tail_cons]

/-- In front of the next tag nothing is read. -/
theorem readRound_skip (h : s.dropWhile (· ≠ 60) = [60]) (hx : x ≠ []) (r : XmlReader σ) :
    readRound fn (.tag r (s ++ x)) = readRound fn (.tag r (60 :: x)) := by
  obtain ⟨c, x, rfl⟩ := List.exists_cons_of_ne_nil hx
  have hdrop : (s ++ c :: x).dropWhile (· ≠ 60) = 60 :: c :: x := by
    rw [dropWhile_append_ne (by rw [h]; exact List.cons_ne_nil _ _), h]
    rfl
  rw [readRound_tag hdrop, readRound_tag rfl]

include hfn hgo in
/-- By induction on the rounds there are: what the reader does in front of the last byte, it does whatever follows. -/
theorem leavesLast_passes (h : leavesLast n s = true) : PassesOn fn s := by
  induction n generalizing s with
  | zero => cases h
  | succ n ih =>
    intro r
    obtain ⟨w, hw⟩ := dropWhile_tag (mem_of_leavesLast h)
    rw [leavesLast, hw] at h
    cases w with
    | nil => exact .on r fun x hx z hz => readRound_skip hw hx r ▸ hz
    | cons c u =>
      have hround (x : Bytes) : readRound fn (.tag r (s ++ x)) =
          readMarkup fn { r with closing := false, selfClosing := false } (c :: (u ++ x)) := by
        apply readRound_tag
        rw [dropWhile_append_ne (by rw [hw]; exact List.cons_ne_nil _ _), hw]
        rfl
      have htag {w : Bytes} (hlast : ((tagAt w).1.finish = .ended && leavesLast n (afterSpace (tagAt w).2)) = true)
          (r : XmlReader σ) : Passes fn fun x => readTag fn r (w ++ x) := by
        obtain ⟨hfinish, hlast⟩ := Bool.and_eq_true_iff.mp hlast
        have hskip := ih (s := (afterSpace (tagAt w).2).dropWhile (· ≠ 60)) (by rwa [leavesLast_dropWhile])
        exact (ih hlast).tag hfn hgo hskip (mem_of_leavesLast hlast) (of_decide_eq_true hfinish) r
      dsimp only at h
      by_cases hbang : c = 33
      · subst hbang
        rw [if_pos rfl] at h
        have hend : (u.dropWhile (· ≠ 62)).tail ≠ [] := List.ne_nil_of_mem (mem_of_leavesLast h)
        refine (ih h { r with closing := false, selfClosing := false }).next.congr fun x _ => ?_
        have hgt : 62 ∈ u ++ x := by
          apply List.mem_append_left
          by_contra hmem
          exact hend (by rw [(dropWhile_ne_nil 62 u).mpr hmem]; rfl)
        rw [hround, readMarkup, if_neg (by decide), if_neg (by decide), if_pos rfl, if_pos hgt, skip_append hend]
      · rw [if_neg hbang] at h
        by_cases hslash : c = 47
        · rw [if_pos hslash] at h
          refine (htag h ⟨r.attrmap, true, false, r.data⟩).congr fun x _ => ?_
          rw [hround, readMarkup, if_pos hslash]
        · rw [if_neg hslash] at h
          by_cases hquery : c = 63
          · refine (htag h ⟨r.attrmap, false, true, r.data⟩).congr fun x _ => ?_
            rw [hround, readMarkup, if_neg hslash, if_pos hquery, List.cons_append]
          · refine (htag h ⟨r.attrmap, false, false, r.data⟩).congr fun x _ => ?_
            rw [hround, readMarkup, if_neg hslash, if_neg hquery, if_neg hbang, List.cons_append]

/-! ## A comment -/

/-- `<!-- c -->`, with any spaces in `c` -/
def xmlComment (c : Bytes) : Bytes := [60, 33, 45, 45] ++ c ++ [45, 45, 62]

/-- Nothing is read as a tag in a text, from inside a `<!` or from outside on. -/
def hiddenFrom : Bool → Bytes → Bool
  | inside, [] => !inside
  | true, c :: s => hiddenFrom (c ≠ 62) s
  | false, c :: s => if c = 60 then s.head? = some 33 && hiddenFrom true s else hiddenFrom false s

/-- The reader passes over a comment. It does not look for `-->`, but goes on behind the first `>`. -/
def Hidden (c : Bytes) : Prop := hiddenFrom true (c ++ [45, 45, 62]) = true

theorem readRound_cons {c : UInt8} (hc : c ≠ 60) (r : XmlReader σ) (s : Bytes) :
    readRound fn (.tag r (c :: s)) = readRound fn (.tag r s) := by
  have hdrop : (c :: s).dropWhile (· ≠ 60) = s.dropWhile (· ≠ 60) := List.dropWhile_cons_of_pos (decide_eq_true hc)
  have hmem : 60 ∈ c :: s ↔ 60 ∈ s := by rw [List.mem_cons, or_iff_right (Ne.symm hc)]
  rw [readRound, readRound, hdrop]
  simp only [hmem]

/-- The flags of the last tag make no difference to the next one. -/
theorem readRound_reset (h : 60 ∈ s) (r : XmlReader σ) :
    readRound fn (.tag { r with closing := false, selfClosing := false } s) = readRound fn (.tag r s) := by
  rw [readRound, readRound, if_pos h, if_pos h]

/-- What is hidden is passed over, by induction on the text, inside of a `<!` and outside. -/
theorem comesTo_hidden {z : Exec (XmlEnd × XmlReader σ)}
    (hz : ComesTo (readRound fn) (readRound fn (.tag r (60 :: x))) z) (s : Bytes) :
    (hiddenFrom false s = true → ComesTo (readRound fn) (readRound fn (.tag r (s ++ 60 :: x))) z) ∧
    (hiddenFrom true s = true → 62 ∈ s ∧
      ComesTo (readRound fn) (readRound fn (.tag r ((s.dropWhile (· ≠ 62)).tail ++ 60 :: x))) z) := by
  induction s with
  | nil => exact ⟨fun _ => hz, fun h => absurd h (by decide)⟩
  | cons c s ih =>
    constructor
    · intro h
      rw [hiddenFrom] at h
      by_cases hlt : c = 60
      · subst hlt
        rw [if_pos rfl, Bool.and_eq_true, decide_eq_true_iff] at h
        obtain ⟨t, rfl⟩ : ∃ t, s = 33 :: t := ⟨s.tail, List.eq_cons_of_mem_head? h.1⟩
        obtain ⟨hmem, hrest⟩ := ih.2 h.2
        have hgt : 62 ∈ t := (List.mem_cons.mp hmem).resolve_left (by decide)
        have hdrop : (33 :: t).dropWhile (· ≠ 62) = t.dropWhile (· ≠ 62) := List.dropWhile_cons_of_pos (by decide)
        have hne : t.dropWhile (· ≠ 62) ≠ [] := mt (dropWhile_ne_nil 62 t).mp (not_not.mpr hgt)
        rw [hdrop, ← readRound_reset (List.mem_append_right _ List.mem_cons_self)] at hrest
        rw [readRound_tag (c := 33) (u := t ++ 60 :: x) rfl, readMarkup, if_neg (by decide), if_neg (by decide),
          if_pos rfl, if_pos (List.mem_append_left _ hgt), dropWhile_append_ne hne, List.tail_append_of_ne_nil hne]
        exact hrest.next
      · rw [if_neg hlt] at h
        rw [List.cons_append, readRound_cons hlt]
        exact ih.1 h
    · intro h
      rw [hiddenFrom] at h
      by_cases hgt : c = 62
      · subst hgt
        have hdrop : (62 :: s).dropWhile (· ≠ 62) = 62 :: s := List.dropWhile_cons_of_neg (by decide)
        rw [hdrop]
        exact ⟨List.mem_cons_self, ih.1 h⟩
      · have hdrop : (c :: s).dropWhile (· ≠ 62) = s.dropWhile (· ≠ 62) :=
          List.dropWhile_cons_of_pos (decide_eq_true hgt)
        rw [decide_eq_true hgt] at h
        rw [hdrop]
        exact ⟨List.mem_cons_of_mem c (ih.2 h).1, (ih.2 h).2⟩

/-- Comments begin with a `<`, as the tag behind them does. -/
theorem exists_comments (cs : List Bytes) (x : Bytes) :
    ∃ y, cs.flatMap xmlComment ++ 60 :: x = 60 :: y ∧ (x ≠ [] → y ≠ []) := by
  cases cs with
  | nil => exact ⟨x, rfl, id⟩
  | cons c cs => exact ⟨_, rfl, fun _ => List.cons_ne_nil _ _⟩

theorem comesTo_comments {z : Exec (XmlEnd × XmlReader σ)}
    (hz : ComesTo (readRound fn) (readRound fn (.tag r (60 :: x))) z) {cs : List Bytes} (h : ∀ c ∈ cs, Hidden c) :
    ComesTo (readRound fn) (readRound fn (.tag r (cs.flatMap xmlComment ++ 60 :: x))) z := by
  induction cs with
  | nil => exact hz
  | cons c cs ih =>
    obtain ⟨hc, hcs⟩ := List.forall_mem_cons.mp h
    obtain ⟨y, hy, -⟩ := exists_comments cs x
    rw [List.flatMap_cons, List.append_assoc, hy]
    have hrest := ih hcs
    rw [hy] at hrest
    have hskip := (comesTo_hidden hrest (60 :: 33 :: 45 :: 45 :: (c ++ [45, 45, 62]))).1 hc
    simpa [xmlComment] using hskip

/-! ## Whole texts -/

/-- Parts of a text, without the comments that are put in front of them. -/
def plain (parts : List (List Bytes × Bytes)) : Bytes := parts.flatMap Prod.snd

def commented (parts : List (List Bytes × Bytes)) : Bytes :=
  parts.flatMap fun part => part.1.flatMap xmlComment ++ part.2

/-- Where comments are put in the reader comes to stand, and they are hidden. -/
def CommentsFit : Bytes → List (List Bytes × Bytes) → Prop
  | _, [] => True
  | s, (cs, s') :: parts =>
    leavesLast (s.length + 2) (s ++ [60]) = true ∧ (∀ c ∈ cs, Hidden c) ∧ CommentsFit s' parts

include hfn hgo in
/-- A text is read to its end, as each round leaves less of it. -/
theorem exists_comesTo (q : XmlPhase Bytes σ) : ∃ z, ComesTo (readRound fn) (readRound fn q) z := by
  induction hm : q.left using Nat.strongRecOn generalizing q with
  | _ m ih =>
    obtain ⟨p, hp⟩ : ∃ p, SamePhase true p q := by
      cases q with
      | tag r s => exact ⟨_, .tag (delivers_whole s)⟩
      | test r tag s => exact ⟨_, .test (delivers_whole s)⟩
    obtain ⟨x, y, -, hy, hxy⟩ := coupled_xmlRound hfn (fun _ => 1) hp fun hw => by cases hw
    obtain rfl := hy.unique (settles_round hgo q)
    generalize readRound fn q = y at hxy
    cases hxy with
    | error he => exact ⟨_, .error he⟩
    | ok hround =>
      cases hround with
      | done heq => exact ⟨_, .done⟩
      | next hnext =>
        obtain ⟨z, hz⟩ := ih _ (hm ▸ hnext.2) _ rfl
        exact ⟨z, hz.next⟩

include hfn hgo in
/-- By induction on the parts: the reader comes to stand in front of each of them, with comments or without. -/
theorem exists_comesTo_both (r : XmlReader σ) {parts : List (List Bytes × Bytes)}
    (htags : ∀ part ∈ parts, ∃ c u, part.2 = 60 :: c :: u) (h : CommentsFit s parts) :
    ∃ z, ComesTo (readRound fn) (readRound fn (.tag r (s ++ plain parts))) z ∧
      ComesTo (readRound fn) (readRound fn (.tag r (s ++ commented parts))) z := by
  induction parts generalizing s r with
  | nil =>
    obtain ⟨z, hz⟩ := exists_comesTo hfn hgo (.tag r (s ++ []))
    exact ⟨z, hz, hz⟩
  | cons part parts ih =>
    obtain ⟨cs, s'⟩ := part
    obtain ⟨⟨c, u, rfl⟩, hlater⟩ := List.forall_mem_cons.mp htags
    obtain ⟨hleaves, hhidden, hrest⟩ := h
    obtain ⟨y, hy, hne⟩ := exists_comments cs (c :: u ++ commented parts)
    have hplain : s ++ plain ((cs, 60 :: c :: u) :: parts) = s ++ [60] ++ (c :: u ++ plain parts) := by
      simp [plain]
    have hcommented : s ++ commented ((cs, 60 :: c :: u) :: parts) = s ++ [60] ++ y := by
      have hcons : s ++ [60] ++ y = s ++ (60 :: y) := by simp
      rw [hcons, ← hy]
      simp [commented]
    have htag (w : Bytes) : c :: u ++ w ≠ [] := List.cons_ne_nil c _
    rw [hplain, hcommented]
    cases leavesLast_passes hfn hgo hleaves r with
    | on r' hpass =>
      obtain ⟨z, hz, hz'⟩ := ih r' hlater hrest
      rw [List.cons_append] at hz'
      have hcomments := comesTo_comments hz' hhidden
      rw [hy] at hcomments
      exact ⟨z, hpass _ (htag _) z hz, hpass y (hne (htag _)) z hcomments⟩
    | fault e he hpass => exact ⟨.error e, hpass _ (htag _), hpass y (hne (htag _))⟩

end Rounds

theorem goesOn_recorded {σ : Type} (f : XmlReader σ → XmlEvent → Bytes × XmlReader σ) : GoesOn (recorded f) := by
  intro r e x h
  cases h
  rfl

/-- Comments make no difference to the events, nor to what the callback makes of them. -/
theorem xmlReadCallback_comments {σ : Type} (f : XmlReader σ → XmlEvent → Bytes × XmlReader σ) (sched : Schedule)
    (r : XmlReader (σ × List XmlEvent)) {s : Bytes} {parts : List (List Bytes × Bytes)}
    (htags : ∀ part ∈ parts, ∃ c u, part.2 = 60 :: c :: u) (hfit : CommentsFit s parts) :
    ∃ x, x ≠ .error .fuel ∧
      Settles (fun m => xmlReadCallback (bufferInput sched) (recorded f) m r (bufferWhole (s ++ plain parts))) x ∧
      Settles (fun m =>
        xmlReadCallback (bufferInput sched) (recorded f) m r (bufferWhole (s ++ commented parts))) x := by
  have hfn := recorded_ne_fuel f
  have hgo := goesOn_recorded f
  have hbuffer (text : Bytes) {z : Exec (XmlEnd × XmlReader (σ × List XmlEvent))}
      (hz : Settles (fun m => xmlReadCallback textInput (recorded f) m r text) z) :
      Settles (fun m => xmlReadCallback (bufferInput sched) (recorded f) m r (bufferWhole text)) z := by
    obtain ⟨x, y, hx, hy, hxy⟩ :=
      coupled_xmlReadCallback hfn sched r (delivers_whole text) fun hw => by cases hw
    obtain rfl := hy.unique hz
    obtain ⟨rfl, -⟩ := hxy.eq
    exact hx
  obtain ⟨z, hz, hz'⟩ := exists_comesTo_both hfn hgo { r with attrmap := some [] } htags hfit
  exact ⟨z, hz.ne_fuel, hbuffer _ (settles_read hgo hz), hbuffer _ (settles_read hgo hz')⟩

/-- `<a>123<!-- <b> --></a>` -/
theorem xmlReadCallback_comments_tag : ∃ x, x ≠ .error .fuel ∧
    Settles (fun m => xmlReadCallback (bufferInput fun _ => 1) (recorded observe) m freshReader
      (bufferWhole ([60, 97, 62, 49, 50, 51] ++ plain [([[32, 60, 98, 62, 32]], [60, 47, 97, 62])]))) x ∧
    Settles (fun m => xmlReadCallback (bufferInput fun _ => 1) (recorded observe) m freshReader
      (bufferWhole ([60, 97, 62, 49, 50, 51] ++ commented [([[32, 60, 98, 62, 32]], [60, 47, 97, 62])]))) x := by
  apply xmlReadCallback_comments observe
  · intro part hpart
    obtain rfl := List.mem_singleton.mp hpart
    exact ⟨47, [97, 62], rfl⟩
  · refine ⟨by decide, ?_, trivial⟩
    intro c hc
    obtain rfl := List.mem_singleton.mp hc
    show hiddenFrom true _ = true
    decide

/-- The events of elements and attributes. -/
def markupEvents (es : List XmlEvent) : List XmlEvent := es.filter fun e => e.id = .element ∨ e.id = .attribute

/-- `<a>123<!-- > <b> --></a>`: the reader goes on behind the first `>`, and reads the tag that follows it. -/
theorem xmlReadCallback_reads_comment : ∃ x y,
    Settles (fun m => xmlReadCallback (bufferInput fun _ => 1) (recorded observe) m freshReader
      (bufferWhole ([60, 97, 62, 49, 50, 51] ++ plain [([[32, 62, 32, 60, 98, 62, 32]], [60, 47, 97, 62])]))) (.ok x) ∧
    Settles (fun m => xmlReadCallback (bufferInput fun _ => 1) (recorded observe) m freshReader
      (bufferWhole ([60, 97, 62, 49, 50, 51] ++ commented [([[32, 62, 32, 60, 98, 62, 32]], [60, 47, 97, 62])])))
        (.ok y) ∧
    markupEvents x.2.data.2 ≠ markupEvents y.2.data.2 := by
  let opened : XmlEvent := ⟨.element, some [97], none, some []⟩
  let name : XmlEvent := ⟨.text, none, some [97], none⟩
  refine ⟨(.ended, ⟨some [], true, false, (), [opened, name, opened]⟩), (.ended, ⟨some [], false, false, (),
    [opened, name, ⟨.element, some [98], none, some []⟩, ⟨.text, some [47, 97, 62], none, none⟩]⟩),
    ⟨40, fun n hn => ?_⟩, ⟨40, fun n hn => ?_⟩, ?_⟩
  · obtain ⟨k, rfl⟩ := Nat.exists_eq_add_of_le' hn
    rfl
  · obtain ⟨k, rfl⟩ := Nat.exists_eq_add_of_le' hn
    rfl
  · decide

end Dirlist
