import Mathlib.Tactic

/-!
# The Brainfuck interpreter

`run` of `userspace/hbfi.c` finds the other bracket of a loop by a scan of the text. An access
outside of the 1024 cells is `none`.
-/

namespace Hojicha.Userspace

open List

/-- `reads` counts the calls of `getchar`. -/
structure Machine where
  dataIdx : BitVec 64
  data : Nat → BitVec 8
  reads : Nat
  output : List (BitVec 8)

def Machine.cell (m : Machine) : Option (BitVec 8) :=
  if m.dataIdx.toNat < 1024 then some (m.data m.dataIdx.toNat) else none

def Machine.store (m : Machine) (v : BitVec 8) : Machine :=
  { m with data := Function.update m.data m.dataIdx.toNat v }

def IsBracket (c : Char) : Prop := c = '[' ∨ c = ']'

instance (c : Char) : Decidable (IsBracket c) := inferInstanceAs (Decidable (_ ∨ _))

/-- `stdin k` is what the `k`-th call of `getchar` returns. -/
def execute (stdin : Nat → BitVec 32) (c : Char) (m : Machine) : Option Machine :=
  match c with
  | '>' => some { m with dataIdx := m.dataIdx + 1 }
  | '<' => some { m with dataIdx := m.dataIdx - 1 }
  | '+' => m.cell.map fun v => m.store (v + 1)
  | '-' => m.cell.map fun v => m.store (v - 1)
  | '.' => m.cell.map fun v => { m with output := m.output ++ [v] }
  | ',' => m.cell.map fun _ => { m.store ((stdin m.reads).setWidth 8) with reads := m.reads + 1 }
  | _ => some m

/-- The loop of `skip_forward`, at the rest of the text from `i` on. -/
def scanForward : Nat → Nat → List Char → Nat
  | _, i, [] => i
  | depth, i, c :: cs =>
    if c = '[' then scanForward (depth + 1) (i + 1) cs
    else if c = ']' then if depth = 1 then i + 1 else scanForward (depth - 1) (i + 1) cs
    else scanForward depth (i + 1) cs

def skipForward (src : List Char) (i : Nat) : Nat := scanForward 1 (i + 1) (src.drop (i + 1))

/-- The loop of `skip_backward`, at the text in front of an index from its end on. -/
def scanBackward (current : Nat) : Nat → List Char → Nat
  | _, [] => current + 1
  | depth, c :: cs =>
    if c = ']' then scanBackward current (depth + 1) cs
    else if c = '[' then if depth = 1 then cs.length + 1 else scanBackward current (depth - 1) cs
    else scanBackward current depth cs

def skipBackward (src : List Char) (i : Nat) : Nat := scanBackward i 1 (src.take i).reverse

variable (stdin : Nat → BitVec 32) (src : List Char)

def step (i : Nat) (c : Char) (m : Machine) : Option (Nat × Machine) :=
  if c = '[' then m.cell.map fun v => (if v ≠ 0 then i + 1 else skipForward src i, m)
  else if c = ']' then m.cell.map fun v => (if v = 0 then i + 1 else skipBackward src i, m)
  else (execute stdin c m).map (i + 1, ·)

def run : Nat → Nat → Machine → Option Machine
  | 0, _, _ => none
  | fuel + 1, i, m =>
    match src[i]? with
    | none => some m
    | some c => (step stdin src i c m).bind fun next => run fuel next.1 next.2

inductive Program
  | done
  | command (c : Char) (hc : ¬IsBracket c) (next : Program)
  | loop (body next : Program)

def Program.text : Program → List Char
  | .done => []
  | .command c _ next => c :: next.text
  | .loop body next => '[' :: (body.text ++ ']' :: next.text)

inductive Program.Exec : Program → Machine → Machine → Prop
  | done {m} : Exec .done m m
  | command {c hc next m m₁ m₂} : execute stdin c m = some m₁ → Exec next m₁ m₂ →
    Exec (.command c hc next) m m₂
  | leave {body next m m'} : m.cell = some 0 → Exec next m m' → Exec (.loop body next) m m'
  | again {body next m m₁ m₂ v} : m.cell = some v → v ≠ 0 → Exec body m m₁ →
    Exec (.loop body next) m₁ m₂ → Exec (.loop body next) m m₂

/-- The brackets match, behind `depth` open ones. -/
def balanced : Nat → List Char → Bool
  | depth, [] => depth = 0
  | depth, c :: cs =>
    if c = '[' then balanced (depth + 1) cs
    else if c = ']' then 0 < depth && balanced (depth - 1) cs
    else balanced depth cs

variable {stdin src} {p body : Program} {pre post : List Char} {m m' m'' : Machine}

theorem exists_program {depth : Nat} (h : balanced depth src = true) :
    ∃ ps : List Program, ps.length = depth ∧
      ∃ p : Program, src = p.text ++ ps.flatMap fun p => ']' :: p.text := by
  induction src generalizing depth with
  | nil => exact ⟨[],by simpa [balanced,eq_comm] using h,.done,rfl⟩
  | cons c cs ih =>
    rw [balanced] at h
    split_ifs at h with hopen hclose
    · obtain ⟨_ | ⟨q,ps⟩,hlen,p,hp⟩ := ih h
      · cases hlen
      · exact ⟨ps,by simpa using hlen,.loop p q,by simp [hopen,hp,Program.text]⟩
    · rw [Bool.and_eq_true,decide_eq_true_eq] at h
      obtain ⟨ps,hlen,p,hp⟩ := ih h.2
      refine ⟨p :: ps,?_,.done,by simp [hclose,hp,Program.text]⟩
      rw [length_cons]
      omega
    · obtain ⟨ps,hlen,p,hp⟩ := ih h
      exact ⟨ps,hlen,.command c (not_or.mpr ⟨hopen,hclose⟩) p,by simp [hp,Program.text]⟩

theorem scanForward_text (d i : Nat) (rest : List Char) :
    scanForward (d + 1) i (p.text++rest)=scanForward (d + 1) (i + p.text.length) rest := by
  induction p generalizing d i rest with
  | done => simp [Program.text]
  | command c hc next ih =>
    rw [IsBracket,not_or] at hc
    simp only [Program.text,cons_append,scanForward,hc,if_false,ih,length_cons]
    congr 1
    omega
  | loop body next ihb ihn =>
    simp [Program.text,scanForward,ihb,ihn]
    congr 1
    omega

theorem scanBackward_text (i d : Nat) (rest : List Char) :
    scanBackward i (d + 1) (p.text.reverse++rest)=scanBackward i (d + 1) rest := by
  induction p generalizing d rest with
  | done => simp [Program.text]
  | command c hc next ih =>
    rw [IsBracket,not_or] at hc
    simp [Program.text,scanBackward,hc,ih]
  | loop body next ihb ihn => simp [Program.text,scanBackward,ihb,ihn]

section Loop

variable (hsrc : src = pre ++ '[' :: (body.text ++ ']' :: post))
include hsrc

theorem run_open (n : Nat) (m : Machine) :
    run stdin src (n + 1) pre.length m=m.cell.bind fun v => run stdin src n
      (if v≠0 then pre.length + 1 else pre.length + body.text.length + 2) m := by
  have hrest : src.drop (pre.length+1) = body.text ++ ']' :: post := by simp [hsrc]
  have hskip : skipForward src pre.length = pre.length+body.text.length+2 := by
    rw [skipForward,hrest,scanForward_text 0]
    simp [scanForward]
    omega
  have hhere : src[pre.length]? = some '[' := by simp [hsrc]
  rw [run,hhere]
  cases hcell : m.cell <;> simp [step,hcell,hskip]

theorem run_close (n : Nat) (m : Machine) :
    run stdin src n (pre.length + 1 + body.text.length) m=run stdin src n pre.length m := by
  have hlen : (pre ++ '[' :: body.text).length = pre.length+1+body.text.length := by
    simp
    omega
  have hfront : src = (pre ++ '[' :: body.text) ++ ']' :: post := by simp [hsrc]
  have hskip : skipBackward src (pre.length+1+body.text.length) = pre.length+1 := by
    rw [skipBackward,← hlen,hfront,take_left,reverse_append,reverse_cons,append_assoc,
      scanBackward_text _ 0]
    simp [scanBackward]
  have hhere : src[pre.length+1+body.text.length]? = some ']' := by
    rw [← hlen,hfront]
    simp
  cases n with
  | zero => rfl
  | succ n =>
    rw [run_open hsrc,run,hhere]
    cases hcell : m.cell with
    | none => simp [step,hcell]
    | some v =>
      have hnext : pre.length+1+body.text.length+1 = pre.length+body.text.length+2 := by omega
      simp [step,hcell,hskip,hnext]

end Loop

theorem run_command {c : Char} {rest : List Char} (hsrc : src=pre++c::rest)
    (hc : ¬IsBracket c) (n : Nat) (m : Machine) : run stdin src (n + 1) pre.length m =
      (execute stdin c m).bind (run stdin src n (pre.length + 1)) := by
  have hhere : src[pre.length]? = some c := by simp [hsrc]
  rw [IsBracket,not_or] at hc
  rw [run,hhere]
  cases hnext : execute stdin c m <;> simp [step,hc,hnext]

/-- The text behind a loop, and the position behind it. -/
theorem behind_loop {next : Program} (hsrc : src=pre++((Program.loop body next).text++post)) :
    src=pre ++ '['::(body.text ++ ']'::(next.text++post)) ∧
      src=(pre++['['])++(body.text ++ ']'::(next.text++post)) ∧
      ∃ pre', src=pre'++(next.text++post) ∧ pre'.length=pre.length + body.text.length + 2 ∧
        pre'.length + next.text.length=pre.length + (Program.loop body next).text.length := by
  refine ⟨by simp [hsrc,Program.text],by simp [hsrc,Program.text],
    pre ++ '[' :: (body.text ++ [']']),by simp [hsrc,Program.text],?_,?_⟩
  · simp
    omega
  · simp [Program.text]
    omega

theorem run_of_exec (h : p.Exec stdin m m') (hsrc : src=pre++(p.text++post)) {n : Nat}
    (hrun : run stdin src n (pre.length + p.text.length) m'=some m'') :
    ∃ k, run stdin src k pre.length m=some m'' := by
  induction h generalizing pre post n with
  | done => exact ⟨n,hrun⟩
  | @command c hc next m m₁ m₂ hnext _ ih =>
    have hfront : src = (pre ++ [c]) ++ (next.text ++ post) := by simp [hsrc,Program.text]
    have hend : (pre ++ [c]).length+next.text.length = pre.length+(c :: next.text).length := by
      simp
      omega
    obtain ⟨k,hk⟩ := ih hfront (hend ▸ hrun)
    refine ⟨k+1,?_⟩
    rw [run_command hsrc hc,hnext,Option.bind_some]
    simpa using hk
  | @leave body next m m' hcell _ ih =>
    obtain ⟨hloop,-,pre',hfront,hlen,hend⟩ := behind_loop hsrc
    obtain ⟨k,hk⟩ := ih hfront (hend ▸ hrun)
    refine ⟨k+1,?_⟩
    rw [run_open hloop,hcell,← hlen]
    exact hk
  | @again body next m m₁ m₂ v hcell hv _ _ ihbody ihloop =>
    obtain ⟨hloop,hbody,-⟩ := behind_loop hsrc
    obtain ⟨k,hk⟩ := ihloop hsrc hrun
    rw [← run_close hloop] at hk
    obtain ⟨k,hk⟩ := ihbody hbody (by simpa using hk)
    refine ⟨k+1,?_⟩
    rw [run_open hloop,hcell,Option.bind_some,if_pos hv]
    simpa using hk

theorem exec_of_run {n : Nat} (hsrc : src=pre++(p.text++post))
    (hrun : run stdin src n pre.length m=some m'') :
    ∃ k≤n, ∃ m', p.Exec stdin m m' ∧
      run stdin src k (pre.length + p.text.length) m'=some m'' := by
  induction n using Nat.strong_induction_on generalizing p pre post m with
  | _ n ih =>
  cases p with
  | done => exact ⟨n,le_rfl,m,.done,hrun⟩
  | command c hc next =>
    cases n with
    | zero => cases hrun
    | succ n =>
      rw [run_command hsrc hc] at hrun
      obtain ⟨m₁,hnext,hrun⟩ := Option.bind_eq_some_iff.mp hrun
      have hfront : src = (pre ++ [c]) ++ (next.text ++ post) := by simp [hsrc,Program.text]
      have hend : (pre ++ [c]).length+next.text.length = pre.length+(c :: next.text).length := by
        simp
        omega
      obtain ⟨k,hk,m',hexec,hrest⟩ := ih n (by omega) hfront (by simpa using hrun)
      exact ⟨k,by omega,m',.command hnext hexec,hend ▸ hrest⟩
  | loop body next =>
    obtain ⟨hloop,hbody,pre',hfront,hlen,hend⟩ := behind_loop hsrc
    cases n with
    | zero => cases hrun
    | succ n =>
      rw [run_open hloop] at hrun
      obtain ⟨v,hcell,hrun⟩ := Option.bind_eq_some_iff.mp hrun
      by_cases hv : v = 0
      · rw [if_neg (not_not.mpr hv),← hlen] at hrun
        obtain ⟨k,hk,m',hexec,hrest⟩ := ih n (by omega) hfront hrun
        exact ⟨k,by omega,m',.leave (hv ▸ hcell) hexec,hend ▸ hrest⟩
      · rw [if_pos hv] at hrun
        obtain ⟨k,hk,m₁,hexec,hrest⟩ := ih n (by omega) hbody (by simpa using hrun)
        rw [length_append,length_singleton,run_close hloop] at hrest
        obtain ⟨k',hk',m',hagain,hrest⟩ := ih k (by omega) hsrc hrest
        exact ⟨k',by omega,m',.again hcell hv hexec hagain,hrest⟩

end Hojicha.Userspace
