/-
# `SisOp.Xargs.Lineas` — every line is passed once

`xargs.c`.  `leer_ngars_lineas` joins up to `NARGS` lines in `linea_aux`, `strtok` takes
them apart again and `execvp` gets them behind the command.  The lines of the input are
the pieces of a scanner (`lineas`); a batch is read off their front (`leerBucle_lee`), and
the batches of a run are all of them (`mainBucle_pasa`).

`linea_aux` is a C string, so a byte 0 in a line ends what `strcat` takes of it.
-/
import SisOp.Lib.Fields

namespace SisOp.Xargs

open SisOp.Lib

/-! ## `xargs.c` -/

abbrev Str := List Char

def ERROR : Int := -1
def EXITO : Int := 0
def MAX_LINEA : Nat := 512

def NUL : Char := Char.ofNat 0

/-- What ends a line. -/
def finLinea (c : Char) : Bool := c == '\n'

/-- What a string is to the functions of `string.h`. -/
def cstr (s : Str) : Str := s.takeWhile (· != NUL)

/-- `getline`: the line with its `'\n'`, and what is left of the input; `none` is -1.  The buffer is
an array of `MAX_LINEA` bytes of the stack, which `realloc` does not take. -/
def getline (stdin : Str) : Except String (Option (Str × Str)) :=
  if stdin = [] then .ok none
  else
    let leida := firstPiece finLinea stdin
    let linea := leida ++ (stdin.drop leida.length).take 1
    if linea.length + 1 ≤ MAX_LINEA then .ok (some (linea, stdin.drop linea.length))
    else .error "realloc(): invalid pointer"

/-- `strcat(linea_aux, linea)`. -/
def strcat (nargs : Nat) (lineaAux linea : Str) : Except String Str :=
  let junta := lineaAux ++ cstr linea
  if junta.length < MAX_LINEA * nargs then .ok junta else .error "stack smashing detected"

/-- `strtok(_, "\n")`: the token, and where the next call goes on. -/
def strtok (s : Str) : Option (Str × Str) :=
  match s.dropWhile finLinea with
  | [] => none
  | c :: t => some (firstPiece finLinea (c :: t), afterPiece finLinea (c :: t))

/-- What `leer_ngars_lineas` reads and writes. -/
structure Lectura where
  stdin : Str
  termine : Bool
  lineaAux : Str

/-- The loop of `leer_ngars_lineas`, with `quedan = NARGS - leidos`. -/
def leerBucle (nargs : Nat) : Nat → Nat → Str → Lectura → Except String (Nat × Lectura)
  | 0, leidos, _, e => .ok (leidos, e)
  | quedan + 1, leidos, linea, e =>
      if e.termine then .ok (leidos, e)
      else do
        let lineaAux ← strcat nargs e.lineaAux linea
        let e := { e with lineaAux := lineaAux }
        if leidos + 1 < nargs then
          match ← getline e.stdin with
          | none => leerBucle nargs quedan (leidos + 1) linea { e with termine := true }
          | some (linea, stdin) => leerBucle nargs quedan (leidos + 1) linea { e with stdin := stdin }
        else leerBucle nargs quedan (leidos + 1) linea e

/-- `leer_ngars_lineas`. -/
def leerNgarsLineas (nargs : Nat) (e : Lectura) : Except String (Nat × Lectura) := do
  match ← getline e.stdin with
  | none => leerBucle nargs nargs 0 [] { e with termine := true }
  | some (linea, stdin) => leerBucle nargs nargs 0 linea { e with stdin := stdin }

theorem strtok_some {s token resto : Str} (h : strtok s = some (token, resto)) :
    token = firstPiece finLinea (s.dropWhile finLinea) ∧
      resto = afterPiece finLinea (s.dropWhile finLinea) ∧ s.dropWhile finLinea ≠ [] := by
  unfold strtok at h
  split at h
  · cases h
  · next hs =>
    obtain ⟨rfl, rfl⟩ := Prod.mk.inj (Option.some.inj h)
    rw [hs]
    exact ⟨rfl, rfl, List.cons_ne_nil _ _⟩

theorem strtok_length {s token resto : Str} (h : strtok s = some (token, resto)) :
    resto.length < s.length := by
  obtain ⟨-, rfl, hne⟩ := strtok_some h
  have hle := (List.dropWhile_suffix (l := s) finLinea).length_le
  have hlt := length_afterPiece_lt finLinea hne
  omega

/-- `parsear_lineas`, from the token behind `cosas[i]` on; `cosas` has `NARGS + 2` cells. -/
def parsearLineas (nargs : Nat) (cosas : List (Option Str)) (i : Nat) (s : Str) :
    Except String (List (Option Str)) :=
  match h : strtok s with
  | none => .ok cosas
  | some (puntero, resto) =>
      have := strtok_length h
      if i + 1 < nargs + 2 then parsearLineas nargs (cosas.set (i + 1) (some puntero)) (i + 1) resto
      else .error "stack smashing detected"
termination_by s.length

/-- An `execvp` that succeeds: its vector up to the null pointer, and the number of lines read for it. -/
structure Ejecucion where
  argv : List Str
  leidos : Nat
  deriving DecidableEq

/-- `iniciar_procesos`. -/
def iniciarProcesos (cosas : List (Option Str)) (leidos : Nat) : Ejecucion :=
  ⟨(cosas.takeWhile Option.isSome).reduceOption, leidos⟩

/-- `cosas` with all cells null but the first. -/
def limpia (nargs : Nat) (comando : Str) : List (Option Str) :=
  (List.replicate (nargs + 2) none).set 0 (some comando)

/-- The loop of `main`, for so many turns: the executions. -/
def mainBucle (nargs : Nat) (comando : Str) :
    Nat → List (Option Str) → Lectura → Except String (List Ejecucion)
  | 0, _, _ => .error "more turns"
  | vueltas + 1, cosas, e =>
      if e.termine then .ok []
      else do
        let (aux, e) ← leerNgarsLineas nargs e
        if aux = 0 then return []
        let cosas ← parsearLineas nargs cosas 0 e.lineaAux
        let resto ← mainBucle nargs comando vueltas (limpia nargs comando) { e with lineaAux := [] }
        return iniciarProcesos cosas aux :: resto

/-- `main`: what it returns, and what it has executed.  A turn reads a byte or is the last. -/
def main (nargs : Nat) (argv : List Str) (stdin : Str) : Except String (Int × List Ejecucion) :=
  match argv with
  | _ :: comando :: _ => do
      let ejecuciones ← mainBucle nargs comando (stdin.length + 1) (limpia nargs comando)
        ⟨stdin, false, []⟩
      return (EXITO, ejecuciones)
  | _ => .ok (ERROR, [])

/-! ## What is claimed -/

/-- The lines of an input, without their `'\n'`. -/
def lineas (s : Str) : List Str := pieces finLinea s

/-- The execution of a batch of lines. -/
def ejecucion (comando : Str) (tanda : List Str) : Ejecucion :=
  ⟨comando :: tanda.filter (!·.isEmpty), tanda.length⟩

/-- The run executes the lines in batches of `nargs`, of which only the last may be shorter. -/
def Pasa (nargs : Nat) (programa comando : Str) (mas : List Str) (stdin : Str) : Prop :=
  ∃ tandas : List (List Str),
    main nargs (programa :: comando :: mas) stdin = .ok (EXITO, tandas.map (ejecucion comando)) ∧
      tandas.flatten = lineas stdin ∧
      (tandas.map (ejecucion comando)).flatMap (·.argv.tail) = (lineas stdin).filter (!·.isEmpty) ∧
      (∀ t ∈ tandas.dropLast, t.length = nargs) ∧ ∀ t ∈ tandas, 1 ≤ t.length ∧ t.length ≤ nargs

/-! ## Reading a batch -/

section

variable {nargs i leidos quedan vueltas : Nat} {comando linea stdin lineaAux s : Str} {xs : List Str}
  {cosas : List (Option Str)} {e : Lectura}

/-- Lines that `getline` and `strcat` take whole. -/
def Cabe (l : Str) : Prop := l.length < MAX_LINEA - 1 ∧ NUL ∉ l

/-- What `getline` leaves in the buffer for the line `l`: only the last line may lack its end. -/
def Renglon (l : Str) (linea stdin : Str) : Prop :=
  linea = l ++ ['\n'] ∨ linea = l ∧ stdin = []

theorem lineas_of_ne_nil (h : stdin ≠ []) : lineas stdin =
    firstPiece finLinea stdin :: lineas (afterPiece finLinea stdin) := pieces_of_ne_nil h

theorem getline_lee (hne : stdin ≠ []) (hcabe : ∀ l ∈ lineas stdin, Cabe l) :
    ∃ l linea resto, getline stdin = .ok (some (linea, resto)) ∧ lineas stdin = l :: lineas resto ∧
      (∀ c ∈ l, finLinea c = false) ∧ Renglon l linea resto ∧ resto.length < stdin.length := by
  have hlineas := lineas_of_ne_nil hne
  have hcorta : (firstPiece finLinea stdin).length < 511 := (hcabe _ (hlineas ▸ List.mem_cons_self)).1
  have hmenos := length_afterPiece_lt finLinea hne
  have hnot : ∀ c ∈ firstPiece finLinea stdin, finLinea c = false := fun c hc =>
    not_sep_of_mem_firstPiece hc
  have hget : ∀ linea, firstPiece finLinea stdin ++
      (stdin.drop (firstPiece finLinea stdin).length).take 1 = linea → linea.length ≤ 511 →
      getline stdin = .ok (some (linea, stdin.drop linea.length)) := by
    intro linea hlinea hlargo
    simp only [getline, if_neg hne, hlinea, MAX_LINEA]
    exact if_pos (by omega)
  rcases piece_cases finLinea stdin with ⟨hl, hnil⟩ | ⟨c, hc, hl⟩
  · have hdrop : stdin.drop (firstPiece finLinea stdin).length = [] := by
      conv => lhs; arg 2; rw [hl]
      exact List.drop_length ..
    have hg := hget (firstPiece finLinea stdin) (by rw [hdrop]; simp) (by omega)
    rw [hdrop] at hg
    exact ⟨_, _, [], hg, by rw [hlineas, hnil], hnot, .inr ⟨rfl, rfl⟩, List.length_pos_of_ne_nil hne⟩
  · obtain rfl : c = '\n' := by simpa [finLinea] using hc
    have hdrop : stdin.drop (firstPiece finLinea stdin).length = '\n' :: afterPiece finLinea stdin := by
      conv => lhs; arg 2; rw [hl]
      exact List.drop_left
    have hg := hget (firstPiece finLinea stdin ++ ['\n']) (by rw [hdrop]; rfl)
      (by rw [List.length_append, List.length_singleton]; omega)
    have hresto : stdin.drop (firstPiece finLinea stdin ++ ['\n']).length = afterPiece finLinea stdin := by
      rw [afterPiece, List.drop_drop, List.length_append, List.length_singleton]
    rw [hresto] at hg
    exact ⟨_, _, _, hg, hlineas, hnot, .inl rfl, hmenos⟩

/-- `linea_aux` ends where a line ends. -/
def Cerrada (lineaAux : Str) : Prop :=
  ∀ s, fields finLinea (lineaAux ++ s) = fields finLinea lineaAux ++ fields finLinea s

theorem cerrada_nil : Cerrada [] := fun _ => rfl

theorem fields_renglon {l : Str} (h : Renglon l linea stdin) (hnot : ∀ c ∈ l, finLinea c = false) :
    fields finLinea linea = [l].filter (!·.isEmpty) := by
  rcases h with rfl | ⟨rfl, -⟩
  · rw [fields_append_cons rfl, fields_nil, List.append_nil, fields_of_not_sep hnot]
  · exact fields_of_not_sep hnot

theorem Cerrada.renglon (h : Cerrada lineaAux) (l : Str) : Cerrada (lineaAux ++ (l ++ ['\n'])) := by
  intro s
  have hfin : finLinea '\n' = true := rfl
  rw [List.append_assoc, h, h, List.append_assoc, List.singleton_append, fields_append_cons hfin,
    fields_append_cons hfin, fields_nil, List.append_nil, List.append_assoc]

theorem strcat_renglon {l : Str} (h : Renglon l linea stdin) (hcabe : Cabe l)
    (hlargo : lineaAux.length ≤ 511 * leidos) (hn : leidos < nargs) :
    strcat nargs lineaAux linea = .ok (lineaAux ++ linea) ∧
      (lineaAux ++ linea).length ≤ 511 * (leidos + 1) := by
  have hcorta : l.length < 511 := hcabe.1
  have hlinea : linea.length ≤ 511 ∧ NUL ∉ linea := by
    rcases h with rfl | ⟨rfl, -⟩
    · refine ⟨by rw [List.length_append, List.length_singleton]; omega, fun hmem => ?_⟩
      rcases List.mem_append.mp hmem with hl | hfin
      · exact hcabe.2 hl
      · exact absurd hfin (by decide)
    · exact ⟨by omega, hcabe.2⟩
  have hcstr : cstr linea = linea := List.takeWhile_eq_self_iff.mpr fun c hc => by
    rw [bne_iff_ne]
    exact fun heq => hlinea.2 (heq ▸ hc)
  have hjunta : (lineaAux ++ linea).length ≤ 511 * (leidos + 1) := by
    rw [List.length_append]
    omega
  refine ⟨?_, hjunta⟩
  have hfits : (lineaAux ++ linea).length < MAX_LINEA * nargs := by
    rw [MAX_LINEA]
    omega
  simp only [strcat, hcstr, if_pos hfits]

/-- The loop takes the line in the buffer and as many more as it may, or all. -/
theorem leerBucle_lee : ∀ (quedan : Nat) {leidos : Nat} {l linea stdin lineaAux : Str},
    leidos + quedan = nargs → 0 < quedan → Cabe l → (∀ l ∈ lineas stdin, Cabe l) →
    (∀ c ∈ l, finLinea c = false) → Renglon l linea stdin → Cerrada lineaAux →
    lineaAux.length ≤ 511 * leidos →
    ∃ t e', leerBucle nargs quedan leidos linea ⟨stdin, false, lineaAux⟩ = .ok (leidos + t.length, e') ∧
      l :: lineas stdin = t ++ lineas e'.stdin ∧
      fields finLinea e'.lineaAux = fields finLinea lineaAux ++ t.filter (!·.isEmpty) ∧
      1 ≤ t.length ∧ t.length ≤ quedan ∧ (t.length = quedan ∨ e'.stdin = []) ∧
      (e'.termine = true → e'.stdin = []) ∧ e'.stdin.length ≤ stdin.length := by
  intro quedan
  induction quedan with
  | zero => exact fun _ h => absurd h (Nat.lt_irrefl 0)
  | succ quedan ih =>
    intro leidos l linea stdin lineaAux hq _ hcabe hresto hnot hr hcerrada hlargo
    obtain ⟨hcat, hjunta⟩ := strcat_renglon hr hcabe hlargo (by omega : leidos < nargs)
    have hcampos : fields finLinea (lineaAux ++ linea) =
        fields finLinea lineaAux ++ [l].filter (!·.isEmpty) := by
      rw [hcerrada, fields_renglon hr hnot]
    rw [leerBucle, if_neg Bool.false_ne_true, hcat]
    by_cases hmas : leidos + 1 < nargs
    · by_cases hne : stdin = []
      · -- the input ends in the middle of the batch
        subst hne
        obtain ⟨quedan, rfl⟩ : ∃ q, quedan = q + 1 := ⟨quedan - 1, by omega⟩
        exact ⟨[l], ⟨[], true, lineaAux ++ linea⟩, by simp [bind, Except.bind, hmas, getline, leerBucle],
          rfl, hcampos, by simp, by simp, .inr rfl, fun _ => rfl, Nat.le_refl _⟩
      · obtain ⟨l1, linea1, stdin1, hget, hlineas, hnot1, hr1, hmenos⟩ := getline_lee hne hresto
        have hlin : linea = l ++ ['\n'] := hr.resolve_right fun h => hne h.2
        rw [hlineas] at hresto
        obtain ⟨t, e', hrun, hsplit, hfields, -, hle, hfull, htermine, hlen⟩ :=
          ih (by omega : leidos + 1 + quedan = nargs) (by omega) (hresto l1 List.mem_cons_self)
            (fun x hx => hresto x (List.mem_cons_of_mem _ hx)) hnot1 hr1
            (hlin ▸ hcerrada.renglon l) hjunta
        refine ⟨l :: t, e', ?_, by rw [hlineas, hsplit, List.cons_append], ?_, by simp, by simpa using hle,
          by simpa using hfull, htermine, by omega⟩
        · simp only [bind, Except.bind, if_pos hmas, hget, hrun, List.length_cons]
          rw [show leidos + 1 + t.length = leidos + (t.length + 1) by omega]
        · rw [hfields, hcampos, List.append_assoc, ← List.filter_append, List.singleton_append]
    · -- the batch is full
      obtain rfl : quedan = 0 := by omega
      exact ⟨[l], ⟨stdin, false, lineaAux ++ linea⟩, by simp [bind, Except.bind, hmas, leerBucle],
        rfl, hcampos, by simp, by simp, .inl rfl, fun h => absurd h Bool.false_ne_true, Nat.le_refl _⟩

/-! ## Taking it apart -/

/-- `cosas` with the command and the arguments set so far. -/
def vector (nargs : Nat) (comando : Str) (xs : List Str) : List (Option Str) :=
  (comando :: xs).map some ++ List.replicate (nargs + 1 - xs.length) none

theorem limpia_eq : limpia nargs comando = vector nargs comando [] := rfl

theorem vector_set (h : xs.length < nargs) (x : Str) :
    (vector nargs comando xs).set (xs.length + 1) (some x) = vector nargs comando (xs ++ [x]) := by
  obtain ⟨k, hk⟩ : ∃ k, nargs + 1 - xs.length = k + 1 := ⟨nargs - xs.length, by omega⟩
  have hk' : nargs + 1 - (xs ++ [x]).length = k := by
    rw [List.length_append, List.length_singleton]
    omega
  have hlen : ((comando :: xs).map some).length = xs.length + 1 := by simp
  rw [vector, vector, hk, hk', List.set_append_right _ _ (by omega), hlen, Nat.sub_self,
    List.replicate_succ, List.set_cons_zero]
  simp

theorem strtok_campos (s : Str) : strtok s = none ∧ fields finLinea s = [] ∨
    ∃ token resto, strtok s = some (token, resto) ∧
      fields finLinea s = token :: fields finLinea resto := by
  rw [← @fields_dropWhile _ finLinea, strtok]
  have hhead := List.head?_dropWhile_not finLinea s
  cases hs : s.dropWhile finLinea with
  | nil => exact .inl ⟨rfl, rfl⟩
  | cons c t =>
    rw [hs, List.head?_cons] at hhead
    have hc : finLinea c = false := by simpa using hhead
    exact .inr ⟨_, _, rfl, by rw [fields_cons hc, fields_dropWhile_not]⟩

theorem parsearLineas_campos : ∀ {s : Str} {xs : List Str},
    xs.length + (fields finLinea s).length ≤ nargs →
    parsearLineas nargs (vector nargs comando xs) xs.length s =
      .ok (vector nargs comando (xs ++ fields finLinea s)) := by
  intro s
  induction hn : s.length using Nat.strong_induction_on generalizing s with
  | _ n ih =>
    intro xs hle
    rcases strtok_campos s with ⟨htok, hcampos⟩ | ⟨token, resto, htok, hcampos⟩
    · rw [hcampos, List.append_nil, parsearLineas]
      split
      · rfl
      · next h => rw [htok] at h; cases h
    · rw [hcampos, List.length_cons] at hle
      rw [parsearLineas]
      split
      · next h => rw [htok] at h; cases h
      · next puntero sigue h =>
        rw [htok] at h
        obtain ⟨rfl, rfl⟩ := Prod.mk.inj (Option.some.inj h)
        have hroom : (xs ++ [token]).length + (fields finLinea resto).length ≤ nargs := by
          rw [List.length_append, List.length_singleton]
          omega
        have hrec := ih resto.length (hn ▸ strtok_length htok) rfl hroom
        rw [List.length_append, List.length_singleton] at hrec
        rw [if_pos (by omega), vector_set (by omega), hrec, hcampos, List.append_assoc,
          List.singleton_append]

theorem iniciarProcesos_vector (h : xs.length ≤ nargs) (leidos : Nat) :
    iniciarProcesos (vector nargs comando xs) leidos = ⟨comando :: xs, leidos⟩ := by
  obtain ⟨k, hk⟩ : ∃ k, nargs + 1 - xs.length = k + 1 := ⟨nargs - xs.length, by omega⟩
  have htake : (vector nargs comando xs).takeWhile Option.isSome = (comando :: xs).map some := by
    rw [vector, hk, List.replicate_succ, List.takeWhile_append_of_pos (by simp)]
    simp
  have hsome : ((comando :: xs).map some).reduceOption = (((comando :: xs).map some).filterMap id : List Str) := rfl
  rw [iniciarProcesos, htake, hsome, List.filterMap_map, Function.id_comp, List.filterMap_some]

/-! ## The run -/

theorem leerNgarsLineas_fin (hn : 1 ≤ nargs) (lineaAux : Str) :
    leerNgarsLineas nargs ⟨[], false, lineaAux⟩ = .ok (0, ⟨[], true, lineaAux⟩) := by
  obtain ⟨q, rfl⟩ : ∃ q, nargs = q + 1 := ⟨nargs - 1, by omega⟩
  rfl

/-- A turn that reads: one batch is executed. -/
theorem mainBucle_tanda (comando : Str) (hn : 1 ≤ nargs) (vueltas : Nat) (hne : stdin ≠ [])
    (hcabe : ∀ l ∈ lineas stdin, Cabe l) : ∃ (t : List Str) (e' : Lectura),
      mainBucle nargs comando (vueltas + 1) (limpia nargs comando) ⟨stdin, false, []⟩ = (do
        let resto ← mainBucle nargs comando vueltas (limpia nargs comando) { e' with lineaAux := [] }
        return ejecucion comando t :: resto) ∧
      lineas stdin = t ++ lineas e'.stdin ∧ 1 ≤ t.length ∧ t.length ≤ nargs ∧
      (t.length = nargs ∨ e'.stdin = []) ∧ (e'.termine = true → e'.stdin = []) ∧
      e'.stdin.length < stdin.length := by
  obtain ⟨l, linea, resto, hget, hlineas, hnot, hr, hmenos⟩ := getline_lee hne hcabe
  rw [hlineas] at hcabe
  obtain ⟨t, e', hrun, hsplit, hfields, hpos, hle, hfull, htermine, hlen⟩ :=
    leerBucle_lee nargs (Nat.zero_add nargs) hn (hcabe l List.mem_cons_self)
      (fun x hx => hcabe x (List.mem_cons_of_mem _ hx)) hnot hr cerrada_nil (Nat.zero_le _)
  have hleer : leerNgarsLineas nargs ⟨stdin, false, []⟩ = .ok (t.length, e') := by
    rw [Nat.zero_add] at hrun
    simp only [leerNgarsLineas, bind, Except.bind, hget, hrun]
  rw [fields_nil, List.nil_append] at hfields
  have hcuenta : (t.filter (!·.isEmpty)).length ≤ nargs := (List.length_filter_le _ _).trans hle
  have hparsear : parsearLineas nargs (limpia nargs comando) 0 e'.lineaAux =
      .ok (vector nargs comando (t.filter (!·.isEmpty))) := by
    rw [limpia_eq, ← hfields]
    have hroom : ([] : List Str).length + (fields finLinea e'.lineaAux).length ≤ nargs := by
      rw [hfields]
      simpa using hcuenta
    exact parsearLineas_campos hroom
  refine ⟨t, e', ?_, hlineas.trans hsplit, hpos, hle, hfull, htermine, by omega⟩
  rw [mainBucle, if_neg Bool.false_ne_true]
  simp only [bind, Except.bind, hleer, if_neg (show ¬ t.length = 0 by omega), hparsear,
    iniciarProcesos_vector hcuenta]
  rfl

theorem mainBucle_pasa (comando : Str) (hn : 1 ≤ nargs) : ∀ (vueltas : Nat) {stdin : Str}, stdin.length < vueltas →
    (∀ l ∈ lineas stdin, Cabe l) → ∃ tandas : List (List Str),
      mainBucle nargs comando vueltas (limpia nargs comando) ⟨stdin, false, []⟩ =
        .ok (tandas.map (ejecucion comando)) ∧ tandas.flatten = lineas stdin ∧
        (∀ t ∈ tandas.dropLast, t.length = nargs) ∧ ∀ t ∈ tandas, 1 ≤ t.length ∧ t.length ≤ nargs := by
  intro vueltas
  induction vueltas with
  | zero => exact fun h => absurd h (Nat.not_lt_zero _)
  | succ vueltas ih =>
    intro stdin hlen hcabe
    by_cases hne : stdin = []
    · subst hne
      refine ⟨[], ?_, pieces_nil.symm, fun t ht => absurd ht List.not_mem_nil,
        fun t ht => absurd ht List.not_mem_nil⟩
      simp [mainBucle, leerNgarsLineas_fin hn, bind, Except.bind, pure, Except.pure]
    obtain ⟨t, ⟨stdin', termine, lineaAux⟩, hrun, hsplit, hpos, hle, hfull, htermine, hmenos⟩ :=
      mainBucle_tanda comando hn vueltas hne hcabe
    dsimp only at hrun hsplit hfull htermine hmenos
    rw [hrun]
    cases termine with
    | true =>
      -- the flag ends the loop
      have hfin := htermine rfl
      subst hfin
      obtain ⟨v, rfl⟩ : ∃ v, vueltas = v + 1 := ⟨vueltas - 1, by omega⟩
      refine ⟨[t], rfl, ?_, fun t ht => absurd ht List.not_mem_nil, fun x hx => ?_⟩
      · rw [hsplit, lineas, pieces_nil]
        simp
      · rw [List.mem_singleton.mp hx]
        exact ⟨hpos, hle⟩
    | false =>
      obtain ⟨tandas, hrest, hflat, hdrop, hall⟩ := ih (by omega : stdin'.length < vueltas) fun x hx =>
        hcabe x (hsplit ▸ List.mem_append_right t hx)
      refine ⟨t :: tandas, ?_, by rw [List.flatten_cons, hflat, hsplit], ?_, ?_⟩
      · simp only [bind, Except.bind, hrest]
        rfl
      · cases tandas with
        | nil => exact fun x hx => absurd hx List.not_mem_nil
        | cons t1 ts =>
          have hfull : t.length = nargs := hfull.resolve_right fun hfin => by
            have hpos1 := (hall t1 List.mem_cons_self).1
            rw [hfin, lineas, pieces_nil] at hflat
            have hnil : t1 = [] := by simp_all
            simp [hnil] at hpos1
          intro x hx
          rw [List.dropLast_cons_of_ne_nil (List.cons_ne_nil _ _)] at hx
          rcases List.mem_cons.mp hx with rfl | hx
          · exact hfull
          · exact hdrop x hx
      · intro x hx
        rcases List.mem_cons.mp hx with rfl | hx
        · exact ⟨hpos, hle⟩
        · exact hall x hx

/-- Every input of short lines without a byte 0 is passed: the arguments of the executions are the
nonempty lines in their order, and every execution but the last has taken `nargs` lines. -/
theorem xargs_passes {programa : Str} {mas : List Str} (hn : 1 ≤ nargs)
    (hcorta : ∀ l ∈ lineas stdin, l.length < MAX_LINEA - 1) (hnul : ∀ l ∈ lineas stdin, NUL ∉ l) :
    Pasa nargs programa comando mas stdin := by
  obtain ⟨tandas, hrun, hflat, hdrop, hall⟩ := mainBucle_pasa comando hn
    (stdin.length + 1) (Nat.lt_succ_self _) fun l hl => ⟨hcorta l hl, hnul l hl⟩
  refine ⟨tandas, ?_, hflat, ?_, hdrop, hall⟩
  · simp only [main, bind, Except.bind, hrun]
    rfl
  · rw [← hflat, List.filter_flatten, List.flatMap_map]
    rfl

/-- Three lines in batches of two, one of them empty and the last without its end. -/
theorem xargs_passes_lines : Pasa 2 ['x'] ['e'] [] ['a', '\n', '\n', 'b'] := by
  have hlineas : lineas ['a', '\n', '\n', 'b'] = [['a'], [], ['b']] := by
    simp [lineas, pieces_of_ne_nil, firstPiece, afterPiece, finLinea]
  exact xargs_passes (by decide) (by rw [hlineas]; decide) (by rw [hlineas]; decide)

/-- The argument for a line with a byte 0 ends before it. -/
theorem xargs_cuts_at_nul :
    (∀ l ∈ lineas ['a', NUL, 'b', '\n'], l.length < MAX_LINEA - 1) ∧
      ¬ Pasa 4 ['x'] ['e'] [] ['a', NUL, 'b', '\n'] := by
  have hlineas : lineas ['a', NUL, 'b', '\n'] = [['a', NUL, 'b']] := by
    simp [lineas, pieces_of_ne_nil, firstPiece, afterPiece, finLinea, NUL]
  have hleer : leerNgarsLineas 4 ⟨['a', NUL, 'b', '\n'], false, []⟩ = .ok (1, ⟨[], true, ['a']⟩) := rfl
  have hparsear : parsearLineas 4 (limpia 4 ['e']) 0 ['a'] = .ok (vector 4 ['e'] [['a']]) :=
    parsearLineas_campos (by decide : ([] : List Str).length + (fields finLinea ['a']).length ≤ 4)
  have hmain : main 4 [['x'], ['e']] ['a', NUL, 'b', '\n'] = .ok (EXITO, [⟨[['e'], ['a']], 1⟩]) := by
    simp only [main, mainBucle, hleer, bind, Except.bind]
    rw [hparsear]
    rfl
  refine ⟨by rw [hlineas]; decide, ?_⟩
  rintro ⟨tandas, hrun, _, hargs, _⟩
  rw [hmain] at hrun
  rw [← (Prod.mk.inj (Except.ok.inj hrun)).2, hlineas] at hargs
  exact absurd hargs (by decide)

end

end SisOp.Xargs
