import Mathlib.Data.Bool.AllAny
import Qse.Sttp.Model

/-!
# How characters are read

Each character that a writer puts out takes the reader from one state to the next, whatever the rest
of the object is.
-/

open List

namespace Qse.SttpFeed

open Fallible

structure Reader where
  stack : List ReadState
  command : SttpCmd
  token : List UInt32
  clock : ℕ
  handled : List SttpCmd

def Sttp.put (s : Sttp) (a : Reader) : Sttp :=
  { s with
    stack := a.stack, command := a.command, token := a.token
    world := { s.world with clock := a.clock, handled := a.handled } }

structure Env.Willing (env : Env) : Prop where
  room : ∀ n, env.room n = true
  accepts : ∀ handled cmd, env.handleCommand handled cmd = true
  passes : ∀ written bytes, env.writeBytes written bytes = true

def Env.plain : Env where
  room _ := true
  handleCommand _ _ := true
  writeBytes _ _ := true

theorem Env.plain_willing : Env.plain.Willing :=
  ⟨fun _ => rfl, fun _ _ => rfl, fun _ _ => rfl⟩

theorem isSpace_ascii : ∀ c < 128, (c == 32 || (9 ≤ c && c ≤ 13) : Bool) =
    (c == (32 : UInt32) || (9 ≤ c && c ≤ 13)) := fun _ _ => rfl

def Ctype.ascii : Ctype where
  isSpace c := c == 32 || (9 ≤ c && c ≤ 13)
  isAlnum c := (48 ≤ c && c ≤ 57) || (65 ≤ c && c ≤ 90) || (97 ≤ c && c ≤ 122)
  space_ascii := isSpace_ascii
  alnum_ascii _ _ := rfl
  alnum_not_space c hc := by
    simp only [Bool.or_eq_true, Bool.and_eq_true, decide_eq_true_eq, UInt32.le_iff_toNat_le] at hc
    simp only [Bool.or_eq_false_iff, Bool.and_eq_false_imp, beq_eq_false_iff_ne, ne_eq,
      decide_eq_true_eq, decide_eq_false_iff_not, ← UInt32.toNat_inj, UInt32.le_iff_toNat_le]
    change ((48 ≤ c.toNat ∧ c.toNat ≤ 57) ∨ (65 ≤ c.toNat ∧ c.toNat ≤ 90)) ∨
      (97 ≤ c.toNat ∧ c.toNat ≤ 122) at hc
    change ¬c.toNat = 32 ∧ (9 ≤ c.toNat → ¬c.toNat ≤ 13)
    omega
  alnum_unicode c hc := by
    simp only [Bool.or_eq_true, Bool.and_eq_true, decide_eq_true_eq, UInt32.le_iff_toNat_le] at hc ⊢
    change ((48 ≤ c.toNat ∧ c.toNat ≤ 57) ∨ (65 ≤ c.toNat ∧ c.toNat ≤ 90)) ∨
      (97 ≤ c.toNat ∧ c.toNat ≤ 122) at hc
    change c.toNat ≤ 1114111
    omega

variable {ct : Ctype} {env : Env}

/-- What `feed_chunk` does with a character, apart from the question whether it takes one. -/
def takeChar (ct : Ctype) (env : Env) (c : UInt32) : SttpM PUnit := do
  let stack ← ask fun s => s.stack
  if stack = [] ∧ isSpaceChar ct c then pure ⟨⟩ else handleChar ct env 2 c

def Takes (ct : Ctype) (env : Env) (a : Reader) (c : UInt32) (b : Reader) : Prop :=
  ∀ s : Sttp, takeChar ct env c (s.put a) = (some ⟨⟩, s.put b)

def Reads (ct : Ctype) (env : Env) : Reader → List UInt32 → Reader → Prop
  | a, [], b => a = b
  | a, c :: cs, b => ∃ m, Takes ct env a c m ∧ Reads ct env m cs b

theorem Takes.reads {a b : Reader} {c : UInt32} (h : Takes ct env a c b) : Reads ct env a [c] b :=
  ⟨b, h, rfl⟩

theorem Reads.append : ∀ {cs ds : List UInt32} {a m b : Reader}, Reads ct env a cs m →
    Reads ct env m ds b → Reads ct env a (cs ++ ds) b
  | [], _, _, _, _, h, h' => by
    cases h
    exact h'
  | _ :: _, _, _, _, _, ⟨next, htakes, h⟩, h' => ⟨next, htakes, h.append h'⟩

theorem Reads.cons {a m b : Reader} {c : UInt32} {cs : List UInt32} (h : Takes ct env a c m)
    (h' : Reads ct env m cs b) : Reads ct env a (c :: cs) b :=
  ⟨m, h, h'⟩

variable {c : UInt32}

theorem isIdentChar_ascii (hc : c < 128) : isIdentChar ct c =
    (((48 ≤ c && c ≤ 57) || (65 ≤ c && c ≤ 90) || (97 ≤ c && c ≤ 122)) ||
      c == '_'.val || c == '-'.val || c == '.'.val || c == '*'.val || c == '@'.val) := by
  rw [isIdentChar, ct.alnum_ascii c hc]

theorem isSpaceChar_ascii (hc : c < 128) : isSpaceChar ct c = (c == 32 || (9 ≤ c && c ≤ 13)) :=
  ct.space_ascii c hc

theorem not_isSpaceChar (hc : isIdentChar ct c = true) : isSpaceChar ct c = false := by
  have hmarks : ∀ d ∈ ['_'.val, '-'.val, '.'.val, '*'.val, '@'.val], isSpaceChar ct d = false := by
    have hascii : ∀ d ∈ ['_'.val, '-'.val, '.'.val, '*'.val, '@'.val],
        d < 128 ∧ (d == 32 || (9 ≤ d && d ≤ 13)) = false := all_iff_forall_prop.1 (by decide)
    intro d hd
    obtain ⟨hsmall, hspace⟩ := hascii d hd
    rw [isSpaceChar_ascii hsmall, hspace]
  simp only [isIdentChar, Bool.or_eq_true, beq_iff_eq] at hc
  rcases hc with ((((halnum | rfl) | rfl) | rfl) | rfl) | rfl
  · exact ct.alnum_not_space c halnum
  all_goals exact hmarks _ (by decide)

theorem not_isIdentChar (hc : c ∈ [' '.val, ','.val, ';'.val, '"'.val]) :
    isIdentChar ct c = false := by
  have hascii : ∀ c ∈ [' '.val, ','.val, ';'.val, '"'.val], c < 128 ∧
      (((48 ≤ c && c ≤ 57) || (65 ≤ c && c ≤ 90) || (97 ≤ c && c ≤ 122)) ||
        c == '_'.val || c == '-'.val || c == '.'.val || c == '*'.val || c == '@'.val) = false :=
    all_iff_forall_prop.1 (by decide)
  obtain ⟨hsmall, hident⟩ := hascii c hc
  rw [isIdentChar_ascii hsmall, hident]

theorem isSpaceChar_blank : isSpaceChar ct ' '.val = true := isSpaceChar_ascii (by decide)

theorem isSpaceChar_newline : isSpaceChar ct '\n'.val = true := isSpaceChar_ascii (by decide)

theorem isSpaceChar_quote : isSpaceChar ct '"'.val = false := isSpaceChar_ascii (by decide)

/-! ## Steps -/

theorem takeChar_handle {s : Sttp} (h : s.stack ≠ [] ∨ isSpaceChar ct c = false) :
    takeChar ct env c s = handleChar ct env 2 c s := by
  have hnot : ¬(s.stack = [] ∧ isSpaceChar ct c = true) := by
    rintro ⟨hstack, hspace⟩
    rcases h with h | h
    · exact h hstack
    · rw [h] at hspace
      cases hspace
  show (if s.stack = [] ∧ isSpaceChar ct c = true then pure ⟨⟩ else handleChar ct env 2 c :
    SttpM PUnit) s = _
  rw [if_neg hnot]

theorem handleChar_of_once {s s' : Sttp}
    (h : handleOnce ct env c s = (some true, s')) : handleChar ct env 2 c s = (some ⟨⟩, s') :=
  bind_some h

theorem pushReadState_willing (henv : env.Willing) (state : ReadState) (s : Sttp) :
    pushReadState env state s = (some ⟨⟩, { s with
      stack := state :: s.stack
      world := { s.world with clock := s.world.clock + 1 } }) := by
  have hpush : pushReadState env state s =
      (if env.room s.world.clock then change fun s => { s with stack := state :: s.stack }
        else failWith .enomem "" [] : SttpM PUnit)
        { s with world := { s.world with clock := s.world.clock + 1 } } := rfl
  rw [hpush, henv.room, if_pos rfl]
  rfl

theorem dispatch_willing (henv : env.Willing) (s : Sttp) :
    dispatch env s = (some ⟨⟩, { s with
      command := ⟨[], []⟩
      world := { s.world with handled := s.world.handled ++ [s.command] } }) := by
  have hrun : dispatch env s =
      (if env.handleCommand s.world.handled s.command then pure ⟨⟩ else fail : SttpM PUnit)
        { s with
          command := ⟨[], []⟩
          world := { s.world with handled := s.world.handled ++ [s.command] } } := rfl
  rw [hrun, henv.accepts, if_pos rfl]
  rfl

variable {stack : List ReadState} {cmd : SttpCmd} {token : List UInt32} {n : ℕ}
  {handled : List SttpCmd} {c : UInt32}

theorem takes_space (hc : isSpaceChar ct c = true) :
    Takes ct env ⟨[], cmd, token, n, handled⟩ c ⟨[], cmd, token, n, handled⟩ := by
  intro s
  show (if ([] : List ReadState) = [] ∧ isSpaceChar ct c = true then pure ⟨⟩
    else handleChar ct env 2 c : SttpM PUnit) _ = _
  rw [if_pos ⟨rfl, hc⟩]
  rfl

theorem takes_start (henv : env.Willing) (hc : isIdentChar ct c = true) :
    Takes ct env ⟨[], cmd, token, n, handled⟩ c
      ⟨[.inName], cmd, token ++ [c], n + 1, handled⟩ := by
  intro s
  rw [takeChar_handle (.inr (not_isSpaceChar hc))]
  apply handleChar_of_once
  show handleStartChar ct env c _ = _
  rw [handleStartChar, if_pos hc]
  exact (bind_some rfl).trans ((bind_some (pushReadState_willing henv _ _)).trans rfl)

theorem takes_name (hc : isIdentChar ct c = true) :
    Takes ct env ⟨.inName :: stack, cmd, token, n, handled⟩ c
      ⟨.inName :: stack, cmd, token ++ [c], n, handled⟩ := by
  intro s
  rw [takeChar_handle (.inr (not_isSpaceChar hc))]
  apply handleChar_of_once
  show handleNameChar ct env c _ = _
  rw [handleNameChar, if_pos hc]
  rfl

theorem takes_name_blank (henv : env.Willing) :
    Takes ct env ⟨[.inName], cmd, token, n, handled⟩ ' '.val
      ⟨[.inParamList false], ⟨token, cmd.args⟩, [], n + 1, handled⟩ := by
  intro s
  rw [takeChar_handle (.inl (cons_ne_nil _ _))]
  apply handleChar_of_once
  have hident : isIdentChar ct ' '.val = false := not_isIdentChar (by decide)
  show handleNameChar ct env ' '.val _ = _
  rw [handleNameChar, if_neg (by rw [hident]; decide), if_pos isSpaceChar_blank]
  exact (bind_some rfl).trans ((bind_some rfl).trans ((bind_some rfl).trans
    ((bind_some (pushReadState_willing henv _ _)).trans rfl)))

theorem takes_name_end (henv : env.Willing) :
    Takes ct env ⟨[.inName], cmd, token, n, handled⟩ ';'.val
      ⟨[], ⟨[], []⟩, [], n, handled ++ [⟨token, cmd.args⟩]⟩ := by
  intro s
  rw [takeChar_handle (.inl (cons_ne_nil _ _))]
  apply handleChar_of_once
  have hident : isIdentChar ct ';'.val = false := not_isIdentChar (by decide)
  have hspace : isSpaceChar ct ';'.val = false := isSpaceChar_ascii (by decide)
  show handleNameChar ct env ';'.val _ = _
  rw [handleNameChar, if_neg (by rw [hident]; decide), if_neg (by rw [hspace]; decide), if_pos rfl]
  exact (bind_some rfl).trans ((bind_some rfl).trans ((bind_some rfl).trans
    ((bind_some (dispatch_willing henv _)).trans rfl)))

theorem takes_list_blank {gotValue : Bool} :
    Takes ct env ⟨.inParamList gotValue :: stack, cmd, token, n, handled⟩ ' '.val
      ⟨.inParamList gotValue :: stack, cmd, token, n, handled⟩ := by
  intro s
  rw [takeChar_handle (.inl (cons_ne_nil _ _))]
  apply handleChar_of_once
  show handleParamListChar ct env gotValue ' '.val _ = _
  rw [handleParamListChar, if_neg (by decide), if_neg (by decide), if_pos isSpaceChar_blank]
  rfl

theorem takes_list_quote (henv : env.Willing) :
    Takes ct env ⟨.inParamList false :: stack, cmd, token, n, handled⟩ '"'.val
      ⟨.inParamString 0 0 0 '"'.val :: .inParamList true :: stack, cmd, [], n + 1, handled⟩ := by
  intro s
  rw [takeChar_handle (.inl (cons_ne_nil _ _))]
  apply handleChar_of_once
  show handleParamListChar ct env false '"'.val _ = _
  rw [handleParamListChar, if_neg (by decide), if_neg (by decide),
    if_neg (by rw [isSpaceChar_quote]; decide), if_neg (by decide), if_pos (.inl rfl)]
  exact (bind_some rfl).trans ((bind_some (pushReadState_willing henv _ _)).trans rfl)

theorem takes_list_comma :
    Takes ct env ⟨.inParamList true :: stack, cmd, token, n, handled⟩ ','.val
      ⟨.inParamList false :: stack, ⟨cmd.name, cmd.args ++ [token]⟩, [], n, handled⟩ := by
  intro s
  rw [takeChar_handle (.inl (cons_ne_nil _ _))]
  apply handleChar_of_once
  show handleParamListChar ct env true ','.val _ = _
  rw [handleParamListChar, if_neg (by decide), if_pos rfl, if_pos rfl]
  rfl

theorem takes_list_end (henv : env.Willing) :
    Takes ct env ⟨[.inParamList true], cmd, token, n, handled⟩ ';'.val
      ⟨[], ⟨[], []⟩, [], n, handled ++ [⟨cmd.name, cmd.args ++ [token]⟩]⟩ := by
  intro s
  rw [takeChar_handle (.inl (cons_ne_nil _ _))]
  apply handleChar_of_once
  show handleParamListChar ct env true ';'.val _ = _
  rw [handleParamListChar, if_pos rfl]
  refine (bind_some rfl).trans ?_
  rw [if_pos (.inl rfl)]
  exact (bind_some rfl).trans ((bind_some rfl).trans ((bind_some rfl).trans
    ((bind_some (dispatch_willing henv _)).trans rfl)))

variable {digitCount : ℕ} {acc qc : UInt32}

theorem takes_string (hslash : c ≠ '\\'.val) (hquote : c ≠ qc) :
    Takes ct env ⟨.inParamString 0 digitCount acc qc :: stack, cmd, token, n, handled⟩ c
      ⟨.inParamString 0 digitCount acc qc :: stack, cmd, token ++ [c], n, handled⟩ := by
  intro s
  rw [takeChar_handle (.inl (cons_ne_nil _ _))]
  apply handleChar_of_once
  show handleParamStringChar 0 digitCount acc qc c _ = _
  rw [handleParamStringChar, if_neg (by decide), if_neg (by decide), if_neg hslash, if_neg hquote]
  rfl

theorem takes_string_slash :
    Takes ct env ⟨.inParamString 0 digitCount acc qc :: stack, cmd, token, n, handled⟩ '\\'.val
      ⟨.inParamString 1 digitCount acc qc :: stack, cmd, token, n, handled⟩ := by
  intro s
  rw [takeChar_handle (.inl (cons_ne_nil _ _))]
  apply handleChar_of_once
  show handleParamStringChar 0 digitCount acc qc '\\'.val _ = _
  rw [handleParamStringChar, if_neg (by decide), if_neg (by decide), if_pos rfl]
  rfl

theorem takes_string_escaped (hc : c = '"'.val ∨ c = '\\'.val) :
    Takes ct env ⟨.inParamString 1 digitCount acc qc :: stack, cmd, token, n, handled⟩ c
      ⟨.inParamString 0 digitCount acc qc :: stack, cmd, token ++ [c], n, handled⟩ := by
  intro s
  rw [takeChar_handle (.inl (cons_ne_nil _ _))]
  apply handleChar_of_once
  show handleParamStringChar 1 digitCount acc qc c _ = _
  rcases hc with rfl | rfl
  · rfl
  · rfl

theorem takes_string_end (hslash : qc ≠ '\\'.val) :
    Takes ct env ⟨.inParamString 0 digitCount acc qc :: stack, cmd, token, n, handled⟩ qc
      ⟨stack, cmd, token, n, handled⟩ := by
  intro s
  rw [takeChar_handle (.inl (cons_ne_nil _ _))]
  apply handleChar_of_once
  show handleParamStringChar 0 digitCount acc qc qc _ = _
  rw [handleParamStringChar, if_neg (by decide), if_neg (by decide), if_neg hslash, if_pos rfl]
  rfl

/-! ## What is written for a command -/

def escapedText : List UInt32 → List UInt32
  | [] => []
  | c :: cs => (if c = '"'.val ∨ c = '\\'.val then ['\\'.val, c] else [c]) ++ escapedText cs

def argText (arg : List UInt32) : List UInt32 := '"'.val :: escapedText arg ++ ['"'.val]

def moreText : List (List UInt32) → List UInt32
  | [] => []
  | arg :: args => ','.val :: ' '.val :: argText arg ++ moreText args

def argsText : List (List UInt32) → List UInt32
  | [] => []
  | arg :: args => ' '.val :: argText arg ++ moreText args

def cmdText (cmd : SttpCmd) : List UInt32 :=
  cmd.name ++ argsText cmd.args ++ [';'.val, '\n'.val]

def cmdsText : List SttpCmd → List UInt32
  | [] => []
  | cmd :: cmds => cmdText cmd ++ cmdsText cmds

def IsName (ct : Ctype) (name : List UInt32) : Prop :=
  name ≠ [] ∧ ∀ c ∈ name, isIdentChar ct c = true

theorem reads_escapedText (stack : List ReadState) (cmd : SttpCmd) (n : ℕ)
    (handled : List SttpCmd) : ∀ (arg token : List UInt32),
    Reads ct env ⟨.inParamString 0 0 0 '"'.val :: stack, cmd, token, n, handled⟩
      (escapedText arg)
      ⟨.inParamString 0 0 0 '"'.val :: stack, cmd, token ++ arg, n, handled⟩
  | [], token => by
    rw [append_nil]
    rfl
  | c :: cs, token => by
    have hrest := reads_escapedText stack cmd n handled cs (token ++ [c])
    rw [append_assoc, singleton_append] at hrest
    rw [escapedText]
    split
    · rename_i hc
      exact .cons takes_string_slash (.cons (takes_string_escaped hc) hrest)
    · rename_i hc
      rw [not_or] at hc
      exact .cons (takes_string hc.2 hc.1) hrest

theorem reads_argText (henv : env.Willing) (stack : List ReadState) (cmd : SttpCmd)
    (token arg : List UInt32) (n : ℕ) (handled : List SttpCmd) :
    Reads ct env ⟨.inParamList false :: stack, cmd, token, n, handled⟩ (argText arg)
      ⟨.inParamList true :: stack, cmd, arg, n + 1, handled⟩ := by
  have hstring := @reads_escapedText ct env (.inParamList true :: stack) cmd
    (n + 1) handled arg []
  exact .cons (takes_list_quote henv) (hstring.append (takes_string_end (by decide)).reads)

theorem reads_moreText (henv : env.Willing) (handled : List SttpCmd) (name : List UInt32) :
    ∀ (args before : List (List UInt32)) (arg : List UInt32) (n : ℕ), ∃ before' arg' n',
    before' ++ [arg'] = before ++ [arg] ++ args ∧
    Reads ct env ⟨[.inParamList true], ⟨name, before⟩, arg, n, handled⟩ (moreText args)
      ⟨[.inParamList true], ⟨name, before'⟩, arg', n', handled⟩
  | [], before, arg, n => ⟨before, arg, n, (append_nil _).symm, rfl⟩
  | next :: args, before, arg, n => by
    obtain ⟨before', arg', n', heq, hreads⟩ :=
      reads_moreText henv handled name args (before ++ [arg]) next (n + 1)
    refine ⟨before', arg', n', ?_, ?_⟩
    · rw [heq, append_assoc (before ++ [arg]), singleton_append]
    · refine .cons takes_list_comma (.cons takes_list_blank ?_)
      exact (reads_argText henv [] _ _ next n handled).append hreads

theorem reads_name (cmd : SttpCmd) (n : ℕ) (handled : List SttpCmd) :
    ∀ (name token : List UInt32), (∀ c ∈ name, isIdentChar ct c = true) →
    Reads ct env ⟨[.inName], cmd, token, n, handled⟩ name
      ⟨[.inName], cmd, token ++ name, n, handled⟩
  | [], token, _ => by
    rw [append_nil]
    rfl
  | c :: cs, token, hname => by
    have hrest := reads_name cmd n handled cs (token ++ [c]) fun d hd =>
      hname d (mem_cons_of_mem c hd)
    rw [append_assoc, singleton_append] at hrest
    exact .cons (takes_name (hname c (.head _))) hrest

def idle (n : ℕ) (handled : List SttpCmd) : Reader := ⟨[], ⟨[], []⟩, [], n, handled⟩

theorem reads_cmdText (henv : env.Willing) {cmd : SttpCmd} (hname : IsName ct cmd.name) (n : ℕ)
    (handled : List SttpCmd) :
    ∃ n', Reads ct env (idle n handled) (cmdText cmd) (idle n' (handled ++ [cmd])) := by
  obtain ⟨name, args⟩ := cmd
  obtain ⟨hne, hchars⟩ := hname
  cases name with
  | nil => exact absurd rfl hne
  | cons c cs =>
    have hstart : Reads ct env (idle n handled) (c :: cs)
        ⟨[.inName], ⟨[], []⟩, c :: cs, n + 1, handled⟩ :=
      .cons (takes_start henv (hchars c (.head _)))
        (reads_name _ _ _ cs [c] fun d hd => hchars d (mem_cons_of_mem c hd))
    have hnewline (m : ℕ) (done : List SttpCmd) : Reads ct env (idle m done) ['\n'.val]
        (idle m done) :=
      (takes_space isSpaceChar_newline).reads
    rw [cmdText]
    cases args with
    | nil =>
      refine ⟨n + 1, ?_⟩
      rw [argsText, append_nil]
      exact hstart.append (.cons (takes_name_end henv) (hnewline _ _))
    | cons arg args =>
      obtain ⟨before, last, n', heq, hmore⟩ :=
        @reads_moreText ct env henv handled (c :: cs) args [] arg (n + 1 + 1 + 1)
      have heq : before ++ [last] = arg :: args := heq
      have harg := @reads_argText ct env henv [] ⟨c :: cs, []⟩ [] arg (n + 1 + 1) handled
      have hargs : Reads ct env ⟨[.inName], ⟨[], []⟩, c :: cs, n + 1, handled⟩
          (argsText (arg :: args))
          ⟨[.inParamList true], ⟨c :: cs, before⟩, last, n', handled⟩ :=
        .cons (takes_name_blank henv) (harg.append hmore)
      have hend := @takes_list_end ct env ⟨c :: cs, before⟩ last n' handled henv
      rw [heq] at hend
      exact ⟨n', (hstart.append hargs).append (.cons hend (hnewline _ _))⟩

theorem reads_cmdsText (henv : env.Willing) : ∀ {cmds : List SttpCmd},
    (∀ cmd ∈ cmds, IsName ct cmd.name) → ∀ (n : ℕ) (handled : List SttpCmd),
    ∃ n', Reads ct env (idle n handled) (cmdsText cmds) (idle n' (handled ++ cmds))
  | [], _, n, handled => ⟨n, by rw [append_nil]; rfl⟩
  | cmd :: cmds, hcmds, n, handled => by
    obtain ⟨m, hcmd⟩ := reads_cmdText henv (hcmds cmd (.head _)) n handled
    obtain ⟨n', hrest⟩ := reads_cmdsText henv
      (fun cmd' hcmd' => hcmds cmd' (mem_cons_of_mem cmd hcmd')) m (handled ++ [cmd])
    rw [append_assoc, singleton_append] at hrest
    exact ⟨n', hcmd.append hrest⟩

end Qse.SttpFeed
