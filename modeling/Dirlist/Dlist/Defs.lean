import Dirlist.Lib.Strand

/-! The doubly linked lists of lib/dlist. The links stand in front of what a node carries, and a list is a pointer to
its first node and one to its last. -/

namespace Dirlist
open Run Ring

structure Dlist where
  head : Option Addr
  tail : Option Addr
deriving DecidableEq, Repr

/-- The struct `node`, and what lies behind it (`p[1]`). -/
structure DlistNode (α : Type) where
  prev : Option Addr
  next : Option Addr
  data : α

variable {α : Type}

/-- The links of a node. -/
def dlistLinks : Links (DlistNode α) where
  next := DlistNode.next
  prev := DlistNode.prev
  setNext x p := { x with next := p }
  setPrev x p := { x with prev := p }
  rest x := { x with prev := none, next := none }
  next_setNext _ _ := rfl
  next_setPrev _ _ := rfl
  prev_setNext _ _ := rfl
  prev_setPrev _ _ := rfl
  rest_setNext _ _ := rfl
  rest_setPrev _ _ := rfl

def nodeSetNext (h : Heap (DlistNode α)) (p : Addr) (q : Option Addr) : Exec (Heap (DlistNode α)) :=
  modify h p fun x => { x with next := q }

def nodeSetPrev (h : Heap (DlistNode α)) (p : Addr) (q : Option Addr) : Exec (Heap (DlistNode α)) :=
  modify h p fun x => { x with prev := q }

/-- `if(prev) prev->next = p; else l->head = p;` -/
def linkNext (l : Dlist) (h : Heap (DlistNode α)) (prev p : Option Addr) : Exec (Dlist × Heap (DlistNode α)) :=
  match prev with
  | some q => do .ok (l, ← nodeSetNext h q p)
  | none => .ok ({ l with head := p }, h)

/-- `if(next) next->prev = p; else l->tail = p;` -/
def linkPrev (l : Dlist) (h : Heap (DlistNode α)) (next p : Option Addr) : Exec (Dlist × Heap (DlistNode α)) :=
  match next with
  | some q => do .ok (l, ← nodeSetPrev h q p)
  | none => .ok ({ l with tail := p }, h)

def dlistInit : Dlist where
  head := none
  tail := none

def dlistPush (l : Dlist) (h : Heap (DlistNode α)) (p : Addr) : Exec (Dlist × Heap (DlistNode α)) := do
  let h ← nodeSetNext h p none
  let h ← nodeSetPrev h p l.tail
  let (l, h) ← linkNext l h l.tail (some p)
  .ok ({ l with tail := some p }, h)

def dlistUnshift (l : Dlist) (h : Heap (DlistNode α)) (p : Addr) : Exec (Dlist × Heap (DlistNode α)) := do
  let h ← nodeSetPrev h p none
  let h ← nodeSetNext h p l.head
  let (l, h) ← linkPrev l h l.head (some p)
  .ok ({ l with head := some p }, h)

def dlistAddAfter (l : Dlist) (h : Heap (DlistNode α)) (p after : Addr) : Exec (Dlist × Heap (DlistNode α)) :=
  if some after = l.tail then dlistPush l h p
  else do
    let x ← load h after
    let h ← nodeSetNext h p x.next
    let h ← nodeSetPrev h p (some after)
    let x ← load h after
    let n ← deref x.next
    let h ← nodeSetPrev h n (some p)
    let h ← nodeSetNext h after (some p)
    .ok (l, h)

def dlistAddBefore (l : Dlist) (h : Heap (DlistNode α)) (p before : Addr) : Exec (Dlist × Heap (DlistNode α)) :=
  if some before = l.head then dlistUnshift l h p
  else do
    let h ← nodeSetNext h p (some before)
    let x ← load h before
    let h ← nodeSetPrev h p x.prev
    let x ← load h before
    let q ← deref x.prev
    let h ← nodeSetNext h q (some p)
    let h ← nodeSetPrev h before (some p)
    .ok (l, h)

/-- `if(p == l->head) l->head = p->next; else p->prev->next = p->next;` -/
def passNext (l : Dlist) (h : Heap (DlistNode α)) (p : Addr) : Exec (Dlist × Heap (DlistNode α)) := do
  let x ← load h p
  if some p = l.head then .ok ({ l with head := x.next }, h)
  else do
    let q ← deref x.prev
    .ok (l, ← nodeSetNext h q x.next)

/-- `if(l->tail == p) l->tail = p->prev; else p->next->prev = p->prev;` -/
def passPrev (l : Dlist) (h : Heap (DlistNode α)) (p : Addr) : Exec (Dlist × Heap (DlistNode α)) := do
  let x ← load h p
  if l.tail = some p then .ok ({ l with tail := x.prev }, h)
  else do
    let q ← deref x.next
    .ok (l, ← nodeSetPrev h q x.prev)

def dlistRemove (l : Dlist) (h : Heap (DlistNode α)) (p : Addr) : Exec (Dlist × Heap (DlistNode α)) := do
  let (l, h) ← passNext l h p
  let (l, h) ← passPrev l h p
  let h ← nodeSetNext h p none
  let h ← nodeSetPrev h p none
  .ok (l, h)

def dlistSwap (l : Dlist) (h : Heap (DlistNode α)) (p1 p2 : Addr) : Exec (Dlist × Heap (DlistNode α)) :=
  if p1 = p2 then .ok (l, h)
  else do
    let l1 ← load h p1
    let l2 ← load h p2
    let (l, h) ← linkPrev l h l2.next (some p1)
    let (l, h) ← linkNext l h l2.prev (some p1)
    let (l, h) ← linkPrev l h l1.next (some p2)
    let (l, h) ← linkNext l h l1.prev (some p2)
    let x1 ← load h p1
    let x2 ← load h p2
    -- only the links are copied back
    let h ← modify h p1 fun x => { x with prev := x2.prev, next := x2.next }
    let h ← modify h p2 fun x => { x with prev := x1.prev, next := x1.next }
    .ok (l, h)

/-- The first list is put in front of the second one, and is left without nodes. -/
def dlistMoveHead (src dst : Dlist) (h : Heap (DlistNode α)) : Exec (Dlist × Dlist × Heap (DlistNode α)) :=
  match dst.head, src.tail with
  | none, _ => .ok (dlistInit, src, h)
  | some d, some t => do
    let h ← nodeSetNext h t (some d)
    let h ← nodeSetPrev h d (some t)
    .ok (dlistInit, { dst with head := src.head }, h)
  | some _, none => .ok (dlistInit, dst, h)

def dlistMoveTail (src dst : Dlist) (h : Heap (DlistNode α)) : Exec (Dlist × Dlist × Heap (DlistNode α)) :=
  match dst.tail, src.head with
  | none, _ => .ok (dlistInit, src, h)
  | some d, some f => do
    let h ← nodeSetPrev h f (some d)
    let h ← nodeSetNext h d (some f)
    .ok (dlistInit, { dst with tail := src.tail }, h)
  | some _, none => .ok (dlistInit, dst, h)

/-! ## Walks -/

/-- One round of `dlist_length`. -/
def lengthRound (h : Heap (DlistNode α)) : Option Addr × Nat → Exec ((Option Addr × Nat) ⊕ Nat)
  | (none, count) => .ok (.inr count)
  | (some node, count) => do
    let x ← load h node
    .ok (.inl (x.next, count + 1))

def dlistLength (n : Nat) (l : Dlist) (h : Heap (DlistNode α)) : Exec Nat :=
  loop (fun _ => lengthRound h) n (l.head, 0)

def findRound (h : Heap (DlistNode α)) (pred : α → Bool) : Option Addr → Exec (Option Addr ⊕ Option Addr)
  | none => .ok (.inr none)
  | some p => do
    let x ← load h p
    if pred x.data then .ok (.inr (some p)) else .ok (.inl x.next)

def dlistFind (n : Nat) (l : Dlist) (h : Heap (DlistNode α)) (pred : α → Bool) : Exec (Option Addr) :=
  loop (fun _ => findRound h pred) n l.head

/-- What `dlist_find_delete` does to the node it has found. -/
def dlistDelete (l : Dlist) (h : Heap (DlistNode α)) (p : Addr) : Exec (Dlist × Heap (DlistNode α)) := do
  let x ← load h p
  let (l, h) ← linkNext l h x.prev x.next
  let x ← load h p
  let (l, h) ← linkPrev l h x.next x.prev
  let h ← nodeSetNext h p none
  let h ← nodeSetPrev h p none
  .ok (l, h)

def dlistFindDelete (n : Nat) (l : Dlist) (h : Heap (DlistNode α)) (pred : α → Bool) :
    Exec (Option Addr × Dlist × Heap (DlistNode α)) := do
  match ← dlistFind n l h pred with
  | none => .ok (none, l, h)
  | some p => do
    let (l, h) ← dlistDelete l h p
    .ok (some p, l, h)

/-- `dlist_foreach_down` and `dlist_foreach_up` go by one of the two links, and meet a node a round. -/
def foreachRound (link : DlistNode α → Option Addr) (h : Heap (DlistNode α)) :
    Option Addr × List Addr → Exec ((Option Addr × List Addr) ⊕ List Addr)
  | (none, met) => .ok (.inr met)
  | (some p, met) => do
    let x ← load h p
    .ok (.inl (link x, met ++ [p]))

def dlistForeachDown (n : Nat) (l : Dlist) (h : Heap (DlistNode α)) : Exec (List Addr) :=
  loop (fun _ => foreachRound DlistNode.next h) n (l.head, [])

def dlistForeachUp (n : Nat) (l : Dlist) (h : Heap (DlistNode α)) : Exec (List Addr) :=
  loop (fun _ => foreachRound DlistNode.prev h) n (l.tail, [])

/-! ## Runs on several lists -/

structure Dlists (α : Type) where
  heap : Heap (DlistNode α)
  list : Nat → Dlist

inductive DlistOp (α : Type)
  | init (i : Nat)
  | push (i : Nat) (p : Addr)
  | unshift (i : Nat) (p : Addr)
  | addAfter (i : Nat) (p after : Addr)
  | addBefore (i : Nat) (p before : Addr)
  | remove (i : Nat) (p : Addr)
  | swap (i : Nat) (p1 p2 : Addr)
  | moveHead (src dst : Nat)
  | moveTail (src dst : Nat)
  | findDelete (i : Nat) (pred : α → Bool)
  | find (i : Nat) (pred : α → Bool)
  | length (i : Nat)
  | down (i : Nat)
  | up (i : Nat)

/-- What a call gives back, or what a walk meets. -/
inductive DlistOut
  | none
  | number (n : Nat)
  | node (p : Option Addr)
  | nodes (ps : List Addr)
deriving DecidableEq, Repr

variable (s : Dlists α)

def Dlists.put (i : Nat) (x : Dlist × Heap (DlistNode α)) : DlistOut × Dlists α :=
  (.none, { heap := x.2, list := Function.update s.list i x.1 })

def Dlists.putTwo (src dst : Nat) (x : Dlist × Dlist × Heap (DlistNode α)) : DlistOut × Dlists α :=
  (.none, { heap := x.2.2, list := Function.update (Function.update s.list src x.1) dst x.2.1 })

def dlistStep (n : Nat) (op : DlistOp α) (s : Dlists α) : Exec (DlistOut × Dlists α) :=
  match op with
  | .init i => .ok (s.put i (dlistInit, s.heap))
  | .push i p => do .ok (s.put i (← dlistPush (s.list i) s.heap p))
  | .unshift i p => do .ok (s.put i (← dlistUnshift (s.list i) s.heap p))
  | .addAfter i p after => do .ok (s.put i (← dlistAddAfter (s.list i) s.heap p after))
  | .addBefore i p before => do .ok (s.put i (← dlistAddBefore (s.list i) s.heap p before))
  | .remove i p => do .ok (s.put i (← dlistRemove (s.list i) s.heap p))
  | .swap i p1 p2 => do .ok (s.put i (← dlistSwap (s.list i) s.heap p1 p2))
  | .moveHead src dst => do .ok (s.putTwo src dst (← dlistMoveHead (s.list src) (s.list dst) s.heap))
  | .moveTail src dst => do .ok (s.putTwo src dst (← dlistMoveTail (s.list src) (s.list dst) s.heap))
  | .findDelete i pred => do
    let (p, x) ← dlistFindDelete n (s.list i) s.heap pred
    .ok (.node p, (s.put i x).2)
  | .find i pred => do .ok (.node (← dlistFind n (s.list i) s.heap pred), s)
  | .length i => do .ok (.number (← dlistLength n (s.list i) s.heap), s)
  | .down i => do .ok (.nodes (← dlistForeachDown n (s.list i) s.heap), s)
  | .up i => do .ok (.nodes (← dlistForeachUp n (s.list i) s.heap), s)

def dlistRun (n : Nat) : List (DlistOp α) → Dlists α → Exec (List DlistOut × Dlists α)
  | [], s => .ok ([], s)
  | op :: ops, s => do
    let (out, s) ← dlistStep n op s
    let (outs, s) ← dlistRun n ops s
    .ok (out :: outs, s)

end Dirlist
