import CommonCc.Base

/-!
# The sliding-window limiter

Time is cut into grids of `grid_distant` milliseconds.  `grid_array` is a ring of
counters, one for each of the last `grid_count` grids, and `req_water_mark` is their sum.
The ring is brought up to date only when a call comes in.
-/

namespace CommonCc

def LR_NORMAL : Int := 0

def LR_FULL : Int := 1

structure CNetGrid where
  grid_count : Nat
  grid_distant : Nat
  max_req_water_mark : Nat
  grid_array : List Nat
  req_water_mark : Nat
  curr_grid : Nat
  virtual_last_grid : Nat
  start_time : TimeVal
deriving Repr, DecidableEq

/-- `InitGrid` at the clock reading `now`. -/
def CNetGrid.InitGrid (grid_count grid_distant max_req_water_mark : Nat) (now : TimeVal) :
    CNetGrid where
  grid_count := grid_count
  grid_distant := grid_distant
  max_req_water_mark := max_req_water_mark
  grid_array := List.replicate grid_count 0
  req_water_mark := 0
  curr_grid := 0
  virtual_last_grid := 0
  start_time := now

/-! ## The parts of check_load -/

/-- The clock stands before the start. -/
def CNetGrid.reset (g : CNetGrid) (cur_time : TimeVal) : CNetGrid :=
  { g with
    start_time := cur_time
    curr_grid := 0
    req_water_mark := 0
    grid_array := List.replicate g.grid_count 0
    virtual_last_grid := 0 }

/-- The slot `i` grids before the current one. -/
def CNetGrid.slot (g : CNetGrid) (i : Nat) : Nat :=
  u32 (u32Sub g.curr_grid i + g.grid_count) % g.grid_count

/-- The first `n` rounds of the loop that clears the slots of the grids passed over. -/
def CNetGrid.clear (g : CNetGrid) : Nat → CNetGrid
  | 0 => g
  | n + 1 =>
      let g' := g.clear n
      { g' with
        req_water_mark := u32Sub g'.req_water_mark (g'.grid_array.getD (g.slot n) 0)
        grid_array := g'.grid_array.set (g.slot n) 0 }

/-- Count the request, and take it back if it reaches the water mark. -/
def CNetGrid.count_request (g : CNetGrid) : Int × CNetGrid :=
  let g₁ := { g with
    grid_array := g.grid_array.set g.curr_grid (u32 (g.grid_array.getD g.curr_grid 0 + 1))
    req_water_mark := u32 (g.req_water_mark + 1) }
  if g₁.max_req_water_mark ≤ g₁.req_water_mark then
    (LR_FULL, { g₁ with
      grid_array := g₁.grid_array.set g.curr_grid
        (u32Sub (g₁.grid_array.getD g.curr_grid 0) 1)
      req_water_mark := u32Sub g₁.req_water_mark 1 })
  else (LR_NORMAL, g₁)

/-- The number of the grid at `time_used` microseconds.  The `double` is taken to be the
exact quotient, and the conversion to `unsigned` to drop what is above 32 bits. -/
def CNetGrid.virtual_curr_grid (g : CNetGrid) (time_used : Int) : Nat :=
  u32 (time_used.toNat / 1000) / g.grid_distant

/-- How many slots `check_load` clears to reach the grid `virtual_curr_grid`. -/
def CNetGrid.grid_spand (g : CNetGrid) (virtual_curr_grid : Nat) : Nat :=
  let grid_spand := u32Sub virtual_curr_grid g.virtual_last_grid
  if g.grid_count < grid_spand then g.grid_count else grid_spand

/-- Move the window on to the grid `virtual_curr_grid`. -/
def CNetGrid.advance (g : CNetGrid) (virtual_curr_grid : Nat) : CNetGrid :=
  CNetGrid.clear
    { g with
      curr_grid := virtual_curr_grid % g.grid_count
      virtual_last_grid := virtual_curr_grid }
    (g.grid_spand virtual_curr_grid)

def CNetGrid.check_load (g : CNetGrid) (cur_time : TimeVal) : Int × CNetGrid :=
  let time_used := (cur_time.tv_sec - g.start_time.tv_sec) * 1000000 + cur_time.tv_usec -
    g.start_time.tv_usec
  if time_used < 0 then (0, g.reset cur_time)
  else
    let virtual_curr_grid := g.virtual_curr_grid time_used
    if virtual_curr_grid ≠ g.virtual_last_grid then
      let g₁ := g.advance virtual_curr_grid
      if g₁.max_req_water_mark ≤ g₁.req_water_mark then (LR_FULL, g₁) else g₁.count_request
    else { g with curr_grid := virtual_curr_grid % g.grid_count }.count_request

end CommonCc
