namespace RedBlack.Seed

def root : UInt64 := 0x5EED2026

/-- The odd factor that spreads the rounds of a workload. -/
def spread : UInt64 := 0x9E3779B97F4A7C15

/-- Mixes the bits of a word, so that words that are close together come to lie
    far apart: two rounds of folding the high half down and multiplying, and one
    last fold. All arithmetic is modulo 2^64. -/
def mix (z : UInt64) : UInt64 :=
  let z := (z ^^^ (z >>> 30)) * 0xBF58476D1CE4E5B9
  let z := (z ^^^ (z >>> 27)) * 0x94D049BB133111EB
  z ^^^ (z >>> 31)

/-- The seed of one workload at one container size. -/
def ofWorkload (workload size : UInt64) : UInt64 :=
  mix (root ^^^ (workload <<< 48) ^^^ size)

/-- The seed of one round of a workload. -/
def ofRound (base round : UInt64) : UInt64 :=
  mix (base ^^^ round * spread)

/-- Keys scattered over all words, one for each number below `size`. -/
def scatteredKeys (size : Nat) (seed : UInt64) : List UInt64 :=
  (List.range size).map fun i => mix (seed ^^^ i.toUInt64)

end RedBlack.Seed
