import Dirlist.Json.Read

/-! The reader comes back with one result only, whatever fuel it is given. -/

namespace Dirlist
open Run

variable {sched : Schedule} {b : Charbuf}

theorem steady_parseNumber (sched : Schedule) (val : JsonVal) (b : Charbuf) :
    Steady (fun m => jsonParseNumber sched m val b) := by
  have hloop : ∀ s, Steady (fun m => loop (numberRound sched) m s) :=
    steady_loop fun s => steady_const (numberRound sched 0 s)
  rcases hpeek : charbufPeekc sched b with ⟨_ | c, b₁⟩
  · simp only [jsonParseNumber, hpeek]
    exact steady_const _
  · by_cases hc : isdigit c = true ∨ c = 45 ∨ c = 46 ∨ c = 43
    · simp only [jsonParseNumber, hpeek, hc, if_true]
      exact (hloop _).bind fun _ => steady_const _
    · simp only [jsonParseNumber, hpeek, hc, if_false]
      exact steady_const _

theorem steady_parseStralloc [Unwritten] (sched : Schedule) (b : Charbuf) (quoted : Bool) :
    Steady (fun m => jsonParseStralloc sched m b quoted) := by
  have hloop : ∀ s, Steady (fun m => loop (strallocRound sched quoted) m s) :=
    steady_loop fun s => steady_const (strallocRound sched quoted 0 s)
  exact (hloop _).bind fun _ => steady_const _

theorem steady_parseString [Unwritten] (sched : Schedule) (val : JsonVal) (b : Charbuf) :
    Steady (fun m => jsonParseString sched m val b) := by
  refine (steady_charbufPredSkip sched b _).bind fun r => ?_
  by_cases hr : r.1 > 0
  · simp only [hr, if_true]
    exact (steady_parseStralloc sched _ _).bind fun _ => steady_const _
  · simp only [hr, if_false]
    exact steady_const _

theorem steady_skipWord (sched : Schedule) (b : Charbuf) (word : Bytes) :
    Steady (fun m => skipWord sched m b word) := by
  induction word generalizing b with
  | nil => exact steady_const _
  | cons c word ih =>
    refine (steady_charbufPredSkip sched b _).bind fun r => ?_
    by_cases hr : r.1 > 0
    · simp only [hr, if_true]
      exact ih r.2
    · simp only [hr, if_false]
      exact steady_const _

theorem steady_parseBoolean (sched : Schedule) (val : JsonVal) (b : Charbuf) :
    Steady (fun m => jsonParseBoolean sched m val b) := by
  rcases hset : charbufSkipIfset sched b [116, 102] with ⟨r, b₁⟩
  by_cases hr : r > 0
  · simp only [jsonParseBoolean, hset, hr, if_true]
    exact (steady_skipWord sched _ _).bind fun _ => steady_const _
  · simp only [jsonParseBoolean, hset, hr, if_false]
    exact steady_const _

theorem steady_skipDelimiter (sched : Schedule) (b : Charbuf) (close : UInt8) :
    Steady (fun m => skipDelimiter sched m b close) := by
  refine (steady_charbufPredSkip sched b _).bind fun r => ?_
  rcases hpeek : charbufPeekc sched r.2 with ⟨_ | c, b₁⟩
  · simp only [hpeek]
    exact steady_const _
  · by_cases hc : c = 44 ∨ c = close
    · simp only [hpeek, hc, if_true]
      exact (steady_charbufPredSkip sched _ _).bind fun _ => steady_const _
    · simp only [hpeek, hc, if_false]
      exact steady_const _

theorem steady_parseKey [Unwritten] (sched : Schedule) (b : Charbuf) :
    Steady (fun m => parseKey sched m b) := by
  refine (steady_parseString sched _ b).bind fun r => ?_
  obtain ⟨r, key, b⟩ := r
  dsimp only
  split
  · exact steady_const _
  · exact (steady_parseNumber sched _ b).bind fun _ => steady_const _

section
variable {parse : Parse} (hp : ∀ j b, Steady (fun m => parse m j b))
include hp

theorem steady_arrayRound (s : Charbuf × List JsonVal) :
    Steady (fun m => arrayRound sched parse m s) := by
  obtain ⟨b, items⟩ := s
  rcases hpeek : charbufPeekc sched b with ⟨_ | c, b₁⟩
  · simp only [arrayRound, hpeek]
    exact steady_const _
  · by_cases hc : c = 93
    · simp only [arrayRound, hpeek, hc, if_true]
      exact steady_const _
    · simp only [arrayRound, hpeek, hc, if_false]
      exact (hp _ _).bind fun _ => (steady_skipDelimiter sched _ _).bind fun _ => steady_const _

theorem steady_parseArray (val : JsonVal) (b : Charbuf) :
    Steady (fun m => jsonParseArray sched parse m val b) := by
  refine (steady_charbufPredSkip sched b _).bind fun r => ?_
  by_cases hr : r.1 > 0
  · simp only [hr, if_true]
    exact (steady_charbufPredSkip sched _ _).bind fun _ =>
      (steady_loop (steady_arrayRound hp) _).bind fun _ => steady_const _
  · simp only [hr, if_false]
    exact steady_const _

theorem steady_objectRound [Unwritten] (s : Charbuf × List (Bytes × JsonVal)) :
    Steady (fun m => objectRound sched parse m s) := by
  obtain ⟨b, members⟩ := s
  rcases hpeek : charbufPeekc sched b with ⟨_ | c, b₁⟩
  · simp only [objectRound, hpeek]
    exact steady_const _
  · by_cases hc : c = 125
    · simp only [objectRound, hpeek, hc, if_true]
      exact steady_const _
    · simp only [objectRound, hpeek, hc, if_false]
      refine (steady_parseKey sched _).bind fun _ => (steady_charbufPredSkip sched _ _).bind
        fun _ => (steady_charbufPredSkip sched _ _).bind fun r => ?_
      by_cases hr : r.1 > 0
      · simp only [hr, if_true]
        refine (steady_charbufPredSkip sched _ _).bind fun _ => (hp _ _).bind fun r => ?_
        by_cases hr : r.1 > 0
        · simp only [hr, if_true]
          exact (steady_const _).bind fun _ => (steady_skipDelimiter sched _ _).bind
            fun _ => steady_const _
        · simp only [hr, if_false]
          exact steady_const _
      · simp only [hr, if_false]
        exact steady_const _

theorem steady_parseObject [Unwritten] (val : JsonVal) (b : Charbuf) :
    Steady (fun m => jsonParseObject sched parse m val b) := by
  refine (steady_charbufPredSkip sched b _).bind fun r => ?_
  by_cases hr : r.1 > 0
  · simp only [hr, if_true]
    exact (steady_charbufPredSkip sched _ _).bind fun _ =>
      (steady_loop (steady_objectRound hp) _).bind fun _ => steady_const _
  · simp only [hr, if_false]
    exact steady_const _

end

theorem steady_firstOf {ps : List Parse} (hps : ∀ p ∈ ps, ∀ j b, Steady (fun m => p m j b))
    (j : JsonVal) (b : Charbuf) : Steady (fun m => firstOf ps m j b) := by
  induction ps generalizing j b with
  | nil => exact steady_const _
  | cons p ps ih =>
    refine (hps p List.mem_cons_self j b).bind fun r => ?_
    by_cases hr : r.1 > 0
    · simp only [hr, if_true]
      exact steady_const _
    · simp only [hr, if_false]
      exact ih (fun p hp => hps p (List.mem_cons_of_mem _ hp)) _ _

theorem steady_jsonParse [Unwritten] (sched : Schedule) (d : Nat) (j : JsonVal) (b : Charbuf) :
    Steady (fun m => jsonParse sched d m j b) := by
  induction d generalizing j b with
  | zero => exact steady_const _
  | succ d ih =>
    refine (steady_charbufPredSkip sched b _).bind fun _ => steady_firstOf ?_ _ _
    simp only [List.forall_mem_cons, List.not_mem_nil, false_imp_iff, implies_true, and_true]
    exact ⟨steady_parseObject ih, steady_parseArray ih,
      fun j b => (steady_charbufPredLookahead sched b _).bind fun _ => steady_const _,
      steady_parseBoolean sched, steady_parseNumber sched, steady_parseString sched⟩

end Dirlist
