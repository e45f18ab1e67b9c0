import ChannelLint.Text.CharClass

/-!
# Lower case

Full lower-casing of a text. One capital letter becomes two code points (U+0130), and the Greek
capital sigma becomes a final sigma at the end of a word. Every other capital letter has a single
lower-case letter.
-/
namespace ChannelLint.Text

/-- Capital letters `first`, `first + step`, … `last`, each `shift` below its small letter. -/
structure CaseRun where
  first : Nat
  last : Nat
  step : Nat
  shift : Int
  deriving DecidableEq, Repr

def CaseRun.contains (r : CaseRun) (n : Nat) : Bool :=
  r.first ≤ n && n ≤ r.last && (n - r.first) % r.step == 0

/-- From the first to the last every second letter is a capital in front of its small letter. -/
def pairedLetters : List (Nat × Nat) := [
  (256,302),(306,310),(313,327),(330,374),(377,381),(386,388),(391,391),(395,395),(401,401),
  (408,408),(416,420),(423,423),(428,428),(431,431),(435,437),(440,440),(444,444),(453,453),
  (456,456),(459,475),(478,494),(498,500),(504,542),(546,562),(571,571),(577,577),(582,590),
  (880,882),(886,886),(984,1006),(1015,1015),(1018,1018),(1120,1152),(1162,1214),(1217,1229),
  (1232,1326),(7680,7828),(7840,7934),(8579,8579),(11360,11360),(11367,11371),(11378,11378),
  (11381,11381),(11392,11490),(11499,11501),(11506,11506),(42560,42604),(42624,42650),(42786,42798),
  (42802,42862),(42873,42875),(42878,42886),(42891,42891),(42896,42898),(42902,42920),(42932,42946),
  (42951,42953),(42960,42960),(42966,42968),(42997,42997)]

/-- The first and the last of a row of capitals, and how far its small letters are away. -/
def letterRows : List (Nat × Nat × Int) := [
  (192,214,32),(216,222,32),(393,394,205),(433,434,217),(904,906,37),(910,911,63),(913,929,32),
  (931,939,32),(1021,1023,-130),(1024,1039,80),(1040,1071,32),(1329,1366,48),(4256,4293,7264),
  (5024,5103,38864),(5104,5109,8),(7312,7354,-3008),(7357,7359,-3008),(7944,7951,-8),(7960,7965,-8),
  (7976,7983,-8),(7992,7999,-8),(8008,8013,-8),(8040,8047,-8),(8072,8079,-8),(8088,8095,-8),
  (8104,8111,-8),(8120,8121,-8),(8122,8123,-74),(8136,8139,-86),(8152,8153,-8),(8154,8155,-100),
  (8168,8169,-8),(8170,8171,-112),(8184,8185,-128),(8186,8187,-126),(8544,8559,16),(9398,9423,26),
  (11264,11311,48),(11390,11391,-10815),(65313,65338,32),(66560,66599,40),(66736,66771,40),
  (66928,66938,39),(66940,66954,39),(66956,66962,39),(66964,66965,39),(68736,68786,64),
  (71840,71871,32),(93760,93791,32),(125184,125217,34)]

def singleLetters : List (Nat × Int) := [
  (376,-121),(385,210),(390,206),(398,79),(399,202),(400,203),(403,205),(404,207),(406,211),
  (407,209),(412,211),(413,213),(415,214),(422,218),(425,218),(430,218),(439,219),(452,2),(455,2),
  (458,2),(497,2),(502,-97),(503,-56),(544,-130),(570,10795),(573,-163),(574,10792),(579,-195),
  (580,69),(581,71),(895,116),(902,38),(908,64),(975,8),(1012,-60),(1017,-7),(1216,15),(4295,7264),
  (4301,7264),(7838,-7615),(8025,-8),(8027,-8),(8029,-8),(8031,-8),(8124,-9),(8140,-9),(8172,-7),
  (8188,-9),(8486,-7517),(8490,-8383),(8491,-8262),(8498,28),(11362,-10743),(11363,-3814),
  (11364,-10727),(11373,-10780),(11374,-10749),(11375,-10783),(11376,-10782),(42877,-35332),
  (42893,-42280),(42922,-42308),(42923,-42319),(42924,-42315),(42925,-42305),(42926,-42308),
  (42928,-42258),(42929,-42282),(42930,-42261),(42931,928),(42948,-48),(42949,-42307),
  (42950,-35384)]

/-- The capital letters above the ASCII range. -/
def caseRuns : List CaseRun :=
  pairedLetters.map (fun (first, last) => ⟨first, last, 2, 1⟩) ++
    letterRows.map (fun (first, last, shift) => ⟨first, last, 1, shift⟩) ++
    singleLetters.map fun (letter, shift) => ⟨letter, letter, 1, shift⟩

/-- Letters with case, and what behaves like them next to a sigma. -/
def casedClass : CharClass := ⟨[
  65,26,6,26,47,1,10,1,4,1,5,23,1,31,1,195,1,4,4,208,1,27,192,4,2,2,3,3,1,1,6,1,1,3,1,1,1,20,1,83,1,
  139,8,166,1,38,9,41,2839,38,1,1,5,1,2,43,2,3,672,86,2,6,2178,9,7,43,2,3,64,44,63,13,1,34,101,278,
  2,6,2,38,2,6,2,8,1,1,1,1,1,1,1,31,2,53,1,7,1,1,3,3,1,7,3,4,2,6,4,13,5,3,1,7,261,1,4,1,2,10,1,1,3,
  5,6,1,1,1,1,1,1,4,1,6,4,1,2,4,5,5,4,1,17,32,3,2,817,52,1814,124,2,103,6,4,3,2,12,38,1,1,5,1,30994,
  46,18,28,134,78,1,23,3,4,1,59,5,2,1,1,1,5,27,2,3,1,821,43,5,9,7,80,20288,7,12,5,1033,26,6,26,1189,
  80,96,36,4,36,116,11,1,15,1,7,1,2,1,11,1,15,1,7,1,2,1731,51,13,51,2989,64,21856,64,25984,85,1,71,
  1,2,2,1,2,2,2,4,1,12,1,1,1,7,1,65,1,4,2,8,1,7,1,28,1,4,1,5,1,1,3,7,1,340,2,25,1,25,1,31,1,25,1,31,
  1,25,1,31,1,25,1,31,1,25,1,8,1844,10,1,20,2529,68,2028,26,6,26,6,26]⟩

/-- Characters that are skipped when the neighbours of a sigma are looked for. -/
def caseIgnorableClass : CharClass := ⟨[
  39,1,6,1,11,1,35,1,1,1,71,1,4,1,1,1,4,1,2,2,503,192,4,2,4,1,9,2,1,1,251,7,207,1,5,1,49,45,1,1,1,2,
  1,2,1,1,44,1,11,6,10,11,1,1,35,1,10,21,16,1,101,8,1,10,1,4,33,1,1,1,30,27,91,11,58,11,4,1,2,1,24,
  24,43,3,44,1,7,2,6,8,41,58,55,1,1,1,4,8,4,1,3,7,10,2,13,1,15,1,58,1,4,4,8,1,20,2,26,1,2,2,57,1,4,
  2,4,2,2,3,3,1,30,2,3,1,11,2,57,1,4,5,1,2,4,1,20,2,22,6,1,1,58,1,2,1,1,4,8,1,7,2,11,2,30,1,61,1,12,
  1,50,1,3,1,55,1,1,3,5,3,1,4,7,2,11,2,29,1,58,1,2,1,6,1,5,2,20,2,28,2,57,2,4,4,8,1,20,2,29,1,72,1,
  7,3,1,1,90,1,2,7,11,9,98,1,2,9,9,1,1,6,74,2,27,1,1,1,1,1,55,14,1,5,1,2,5,11,1,36,9,1,102,4,1,6,1,
  2,2,2,25,2,4,3,16,4,13,1,2,2,6,1,15,1,94,1,608,3,946,3,29,2,30,2,30,2,64,2,1,7,8,1,2,11,3,1,5,1,
  45,5,51,1,65,2,34,1,118,3,4,2,9,1,6,3,219,2,2,1,58,1,1,7,1,1,1,1,2,8,6,10,2,1,39,1,8,31,49,4,48,1,
  1,5,1,1,5,1,40,9,12,2,32,4,2,2,1,3,56,1,1,2,3,1,1,3,58,8,2,2,64,6,82,3,1,13,1,7,4,1,6,1,3,2,50,63,
  13,1,34,101,445,1,1,3,11,3,13,3,13,3,13,2,12,5,8,2,10,1,2,1,2,5,49,5,1,10,1,1,13,1,16,13,51,33,
  2955,2,113,3,125,1,15,1,96,32,47,1,469,1,36,4,3,5,5,1,93,6,93,3,28438,1,1250,6,270,1,98,4,1,10,1,
  1,28,4,80,2,14,34,78,1,23,3,103,3,3,2,8,1,3,1,4,1,25,2,5,1,151,2,26,18,13,1,38,8,25,11,46,3,48,1,
  2,4,2,2,17,1,21,2,66,6,2,2,2,2,12,1,8,1,35,1,11,1,51,1,1,3,2,2,5,2,1,1,27,1,14,2,5,2,1,1,100,5,9,
  3,121,1,2,1,4,1,20272,1,147,17,573,16,3,1,12,16,34,1,2,1,169,1,7,1,6,1,11,1,35,1,1,1,47,1,45,2,67,
  1,21,3,513,1,226,1,149,5,1029,6,1,42,1,9,582,3,1,2,5,4,40,3,4,1,165,2,573,4,387,2,153,11,49,4,123,
  1,54,15,41,1,2,2,10,3,49,4,2,2,2,1,4,1,10,1,50,3,36,5,1,8,62,1,12,2,52,9,10,4,2,1,95,3,2,1,1,2,6,
  1,160,1,3,8,21,2,57,2,3,1,37,7,3,5,195,8,2,3,1,1,23,1,84,6,1,1,4,2,1,2,238,4,6,2,1,2,27,2,85,8,2,
  1,1,2,106,1,1,1,2,6,1,1,101,3,2,4,1,5,259,9,1,2,256,2,1,1,4,1,144,4,2,2,4,1,32,10,40,6,2,4,8,1,9,
  6,2,3,46,13,1,2,406,7,1,6,1,1,82,22,2,7,1,2,1,2,122,6,3,1,1,2,1,7,1,1,72,2,3,1,1,1,347,2,5435,9,
  14007,5,59,7,9,4,1035,1,63,17,64,2,1,2,16395,4,1,7,1,2,3230,2,1,4,4700,46,2,23,544,3,9,16,2,7,30,
  4,148,3,1979,55,4,50,8,1,14,1,22,5,1,15,1360,7,1,17,2,7,1,2,1,5,261,14,368,1,61,4,1504,7,109,8,
  2735,5,789505,1,30,96,128,240]⟩

/-- Lower case of a letter by itself. -/
def lowerChar (c : Char) : Char :=
  if c.toNat < 128 then c.toLower
  else match caseRuns.find? (·.contains c.toNat) with
    | some run => Char.ofNat ((c.toNat : Int) + run.shift).toNat
    | none => c

/-- Whether the first character that is not skipped has case. -/
def meetsCased (cs : List Char) : Bool :=
  match cs.dropWhile caseIgnorableClass.contains with
  | [] => false
  | c :: _ => casedClass.contains c

/-- Lower case with the characters already passed in `before`, nearest first. -/
def lowerFrom (before : List Char) : List Char → List Char
  | [] => []
  | c :: rest =>
    let small :=
      if c == 'Σ' then (if meetsCased before && !meetsCased rest then ['ς'] else ['σ'])
      else if c == 'İ' then ['i', '\u0307']
      else [lowerChar c]
    small ++ lowerFrom (c :: before) rest

/-- Lower case of a text. -/
def lower (s : String) : String :=
  if s.toList.all (·.toNat < 128) then String.ofList (s.toList.map Char.toLower)
  else String.ofList (lowerFrom [] s.toList)

end ChannelLint.Text
